import FreshLocal.Proofs.PlacedBody
import FreshLocal.Proofs.PoolGrowth
import FreshLocal.Script

/-!
# The events of a class

A script without a fault has a fixed shape: the start of the class, its fields,
its methods, its attributes and the end. Each method is sent as its declaration
and the events of its body; a method without a body has none.

* `SentMethod.Same`: two methods say the same.
* `classEvents`: the events of a class with some methods.
* `ClassEvent.methods`: the methods among some events.
* `Method.Reads`: a stored method is read as one that is sent.
* `ClassFile.script_eq_ok`, `ClassFile.script_of_reads`: **the script of a class**.
-/

namespace FreshLocal

/-- A method as it is sent: its declaration, and the events of its body if it has one. -/
abbrev SentMethod := MethodDeclaration × List BodyEvent

/-- Do two methods say the same? They have one declaration, and their bodies one content. -/
def SentMethod.Same (x y : SentMethod) : Prop :=
  x.1 = y.1 ∧ ∃ p, PlacedBody.ofEvents? x.2 = some p ∧ PlacedBody.ofEvents? y.2 = some p

/-- The events of a method. -/
def methodEvents (x : SentMethod) : List ClassEvent :=
  .methodStart x.1 :: (x.2.map .body ++ [.methodEnd])

/-- The events of a class. -/
def classEvents (c : ClassDeclaration) (fields : List Field) (methods : List SentMethod)
    (attributes : List Attribute) : List ClassEvent :=
  .classStart c :: (fields.map .field ++ (methods.flatMap methodEvents ++
    (attributes.map .attribute ++ [.classEnd])))

namespace ClassEvent

/-- The events of a body that stand in front. -/
def body? : List ClassEvent → List BodyEvent
  | .body e :: rest => e :: body? rest
  | _ => []

/-- **The methods among some events.** -/
def methods : List ClassEvent → List SentMethod
  | [] => []
  | .methodStart d :: rest => (d, body? rest) :: methods rest
  | _ :: rest => methods rest

theorem body?_append (events : List BodyEvent) (rest : List ClassEvent) :
    body? (events.map .body ++ .methodEnd :: rest) = events := by
  induction events with
  | nil => rfl
  | cons e events ih => rw [List.map_cons, List.cons_append, body?, ih]

theorem methods_skip {front rest : List ClassEvent} (h : ∀ e ∈ front, ∀ d, e ≠ .methodStart d) :
    methods (front ++ rest) = methods rest := by
  induction front with
  | nil => rfl
  | cons e front ih =>
    have hrest := ih fun e he => h e (by simp [he])
    cases e with
    | methodStart d => exact absurd rfl (h _ (by simp) d)
    | _ => exact hrest

theorem methods_methodEvents (x : SentMethod) (rest : List ClassEvent) :
    methods (methodEvents x ++ rest) = x :: methods rest := by
  have hskip : methods (x.2.map .body ++ .methodEnd :: rest) = methods rest := by
    rw [List.append_cons, methods_skip]
    intro e he d
    obtain he | he := List.mem_append.1 he
    · obtain ⟨_, -, rfl⟩ := List.mem_map.1 he
      simp
    · rw [List.mem_singleton.1 he]; simp
  rw [methodEvents, List.cons_append, List.append_assoc, List.singleton_append, methods,
    body?_append, hskip]

/-- The methods among the events of a class. -/
theorem methods_classEvents {c : ClassDeclaration} {fields : List Field} {ms : List SentMethod}
    {attributes : List Attribute} : methods (classEvents c fields ms attributes) = ms := by
  have hbehind : methods (attributes.map .attribute ++ [.classEnd]) = [] := by
    rw [methods_skip]
    · rfl
    · intro e he d
      obtain ⟨_, -, rfl⟩ := List.mem_map.1 he
      simp
  have hmethods : methods (ms.flatMap methodEvents ++ (attributes.map .attribute ++ [.classEnd])) =
      ms := by
    induction ms with
    | nil => exact hbehind
    | cons x ms ih => rw [List.flatMap_cons, List.append_assoc, methods_methodEvents, ih]
  rw [classEvents, methods, methods_skip, hmethods]
  · intro e he d
    obtain ⟨_, -, rfl⟩ := List.mem_map.1 he
    simp
  · simp

end ClassEvent

namespace Script

variable {scripts : List Script}

/-- A script in front of others hides them if it has a fault. -/
theorem concat_cons (s : Script) (rest : List Script) : concat (s :: rest) =
    if s.fault.isNone then ⟨s.events ++ (concat rest).events, (concat rest).fault⟩ else s := by
  simp only [concat, List.span_eq_takeWhile_dropWhile, List.takeWhile_cons, List.dropWhile_cons]
  by_cases hs : s.fault.isNone
  · simp only [if_pos hs]
    cases rest.dropWhile (·.fault.isNone) <;> simp
  · simp only [if_neg hs, List.flatMap_nil, List.nil_append]

/-- **Scripts in a row** without a fault. -/
theorem concat_eq (h : ∀ s ∈ scripts, s.fault = none) :
    concat scripts = ⟨scripts.flatMap events, none⟩ := by
  induction scripts with
  | nil => rfl
  | cons s scripts ih =>
    have hs : s.fault.isNone := Option.isNone_iff_eq_none.2 (h s List.mem_cons_self)
    rw [concat_cons, if_pos hs, ih fun s' hs' => h s' (List.mem_cons_of_mem _ hs')]
    rfl

theorem fault_of_concat (h : (concat scripts).fault = none) : ∀ s ∈ scripts, s.fault = none := by
  induction scripts with
  | nil =>
    intro s hs
    exact absurd hs List.not_mem_nil
  | cons s scripts ih =>
    rw [concat_cons] at h
    by_cases hs : s.fault.isNone
    · rw [if_pos hs] at h
      intro s' hs'
      rcases List.mem_cons.1 hs' with rfl | hs'
      · exact Option.isNone_iff_eq_none.1 hs
      · exact ih h s' hs'
    · rw [if_neg hs] at h
      exact absurd (Option.isNone_iff_eq_none.2 h) hs

end Script

namespace Method

variable {pool pool' : ConstantPool} {m : Method} {x : SentMethod}

/-- **A stored method is read** as one that is sent. -/
def Reads (pool : ConstantPool) (m : Method) (x : SentMethod) : Prop :=
  ∃ code, split pool m = .ok (x.1, code) ∧
    match code with
    | none => x.2 = []
    | some a => ∃ b, Body.read pool a.body = .ok b ∧ b.events = (x.2, none)

theorem script_of_reads (h : m.Reads pool x) : script pool m = ⟨methodEvents x, none⟩ := by
  obtain ⟨d, events⟩ := x
  obtain ⟨code, hsplit, hcode⟩ := h
  unfold script
  rw [hsplit]
  cases code with
  | none =>
    obtain rfl : events = [] := hcode
    rfl
  | some a =>
    obtain ⟨b, hread, hevents⟩ := hcode
    have hbody : bodyScript pool d.title a = ⟨events.map .body, none⟩ := by
      rw [bodyScript, hread]
      dsimp only
      rw [hevents]
      rfl
    dsimp only
    rw [hbody, Script.concat_eq (by simp)]
    simp [methodEvents]

theorem reads_of_script (h : (script pool m).fault = none) : ∃ x, m.Reads pool x := by
  unfold script at h
  split at h
  · cases h
  · rename_i d hsplit
    exact ⟨(d, []), none, hsplit, rfl⟩
  · rename_i d a hsplit
    have hbody := Script.fault_of_concat h (bodyScript pool d.title a) (by simp)
    unfold bodyScript at hbody
    split at hbody
    · cases hbody
    · rename_i b hread
      dsimp only at hbody
      refine ⟨(d, b.events.1), some a, hsplit, b, hread, ?_⟩
      exact Prod.ext rfl (Option.map_eq_none_iff.1 hbody)

end Method

namespace ClassFile

variable {c : ClassFile} {d : ClassDeclaration} {ms : List SentMethod}

/-- **The script of a class** whose methods are read. -/
theorem script_of_reads (hd : c.declaration = .ok d)
    (h : List.Forall₂ (Method.Reads c.pool) c.methods.toList ms) :
    c.script = ⟨classEvents d c.fields.toList ms c.attributes.toList, none⟩ := by
  have hscripts : c.methods.toList.map (Method.script c.pool) =
      ms.map fun x => ⟨methodEvents x, none⟩ := by
    generalize c.methods.toList = methods at h
    induction h with
    | nil => rfl
    | cons hx _ ih => rw [List.map_cons, List.map_cons, Method.script_of_reads hx, ih]
  unfold script
  rw [hd]
  dsimp only
  rw [hscripts, Script.concat_eq]
  · simp [classEvents, List.flatMap_map]
  · intro s hs
    simp only [List.mem_append, List.mem_cons, List.mem_map, List.not_mem_nil, or_false] at hs
    obtain (rfl | ⟨x, -, rfl⟩) | rfl := hs <;> rfl

/-- **A class that is read without a fault** has methods that are read. -/
theorem script_eq_ok (h : c.script.fault = none) : ∃ d ms, c.declaration = .ok d ∧
    List.Forall₂ (Method.Reads c.pool) c.methods.toList ms ∧
      c.script.events = classEvents d c.fields.toList ms c.attributes.toList := by
  unfold script at h
  split at h
  · cases h
  · rename_i d hd
    have hall : ∀ m ∈ c.methods.toList, ∃ x, m.Reads c.pool x := fun m hm =>
      Method.reads_of_script (Script.fault_of_concat h _
        (List.mem_append_left _ (List.mem_cons_of_mem _ (List.mem_map_of_mem hm))))
    have hms : ∃ ms, List.Forall₂ (Method.Reads c.pool) c.methods.toList ms := by
      generalize c.methods.toList = methods at hall
      induction methods with
      | nil => exact ⟨[], .nil⟩
      | cons m methods ih =>
        obtain ⟨x, hx⟩ := hall m (by simp)
        obtain ⟨ms, hms⟩ := ih fun m hm => hall m (by simp [hm])
        exact ⟨x :: ms, .cons hx hms⟩
    obtain ⟨ms, hms⟩ := hms
    exact ⟨d, ms, hd, hms, by rw [script_of_reads hd hms]⟩

end ClassFile

end FreshLocal
