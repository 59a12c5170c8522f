import FreshLocal.Descriptor.Parser
import FreshLocal.Proofs.Results
import FreshLocal.Proofs.StorableBody
import FreshLocal.Slot
import Mathlib.Data.List.TakeWhile

/-!
# The text of a descriptor

A text that is read as a type is the text of that type. So the names in a method
descriptor are parts of its text, and they fit into constants if the text does.

* `FieldType.read_eq_ok`, `MethodDescriptor.read_eq_ok`: what a reader took.
* `MethodDescriptor.parse_eq_ok`: **a text that was parsed** is the text of the descriptor.
* `DeclaredMethod.shortName_implicit`: the types of the receiver and the arguments fit.
-/

namespace FreshLocal

variable {cs rest : List Char}

theorem BaseType.letter_of_ofLetter? {c : Char} {type : BaseType} (h : ofLetter? c = some type) :
    type.letter = c := by
  unfold ofLetter? at h
  split at h <;> cases h <;> rfl

theorem BaseType.read_eq_ok {type : BaseType} (h : read cs = .ok (type, rest)) :
    cs = type.letter :: rest := by
  unfold read at h
  split at h
  · cases h
  · split at h
    · rename_i htype
      cases h
      rw [letter_of_ofLetter? htype]
    · cases h

theorem UnqualifiedName.ofText_eq_ok {text : String} {name : UnqualifiedName}
    (h : ofText text = .ok name) : name.text = text := by
  unfold ofText at h
  split at h
  · cases h; rfl
  · cases h

theorem BinaryName.ofText_eq_ok {text : String} {name : BinaryName} (h : ofText text = .ok name) :
    name.text = text := by
  unfold ofText at h
  split at h
  · cases h; rfl
  · cases h

theorem BinaryName.read_eq_ok {name : BinaryName} (h : read cs = .ok (name, rest)) :
    cs = name.chars ++ rest := by
  unfold read at h
  split at h
  · rename_i behind
    have hspan := List.span_eq_takeWhile_dropWhile (p := fun c : Char => decide (c ≠ ';'))
      (l := behind)
    split at h
    · cases h
    · rename_i front c after hsplit
      rw [hspan] at hsplit
      obtain ⟨hfront, hafter⟩ := Prod.mk.inj hsplit
      have hc : c = ';' := by
        have hhead := List.head?_dropWhile_not (fun c : Char => decide (c ≠ ';')) behind
        rw [hafter] at hhead
        simpa using hhead
      have hbehind : behind = front ++ ';' :: after := by
        rw [← List.takeWhile_append_dropWhile (p := fun c : Char => decide (c ≠ ';')) (l := behind),
          hfront, hafter, hc]
      split at h
      · rename_i name hname
        cases h
        rw [chars, ofText_eq_ok hname, hbehind]
        simp
      · cases h
  · cases h

theorem ElementType.read_eq_ok {e : ElementType} (h : read cs = .ok (e, rest)) :
    cs = e.chars ++ rest := by
  unfold read at h
  split at h
  · split at h
    · rename_i name rest' hname
      cases h
      exact BinaryName.read_eq_ok hname
    · cases h
  · split at h
    · rename_i type rest' htype
      cases h
      exact BaseType.read_eq_ok htype
    · cases h

/-- **A field type that was read** from the front of some characters. -/
theorem FieldType.read_eq_ok {t : FieldType} (h : read cs = .ok (t, rest)) :
    cs = t.chars ++ rest := by
  unfold read at h
  split at h
  · rename_i element rest' helement
    cases h
    have hbrackets : cs.takeWhile (fun c => decide (c = '[')) =
        List.replicate (cs.takeWhile fun c => decide (c = '[')).length '[' :=
      List.eq_replicate_of_mem fun c hc => by simpa using List.mem_takeWhile_imp hc
    rw [chars, List.append_assoc, ← hbrackets, ← ElementType.read_eq_ok helement,
      List.takeWhile_append_dropWhile]
  · cases h

namespace MethodDescriptor

theorem readParametersOnto_eq_ok {fuel : Nat} {done ts : List FieldType}
    (h : readParametersOnto fuel done cs = .ok (ts, rest)) :
    ∃ more, ts = done.reverse ++ more ∧ cs = more.flatMap FieldType.chars ++ ')' :: rest := by
  fun_induction readParametersOnto fuel done cs with
  | case1 => cases h
  | case2 => cases h; exact ⟨[], by simp, rfl⟩
  | case3 => cases h
  | case4 fuel done cs _ _ t behind ht ih =>
    obtain ⟨more, rfl, hbehind⟩ := ih h
    refine ⟨t :: more, by simp, ?_⟩
    rw [FieldType.read_eq_ok ht, hbehind, List.flatMap_cons, List.append_assoc]
  | case5 => cases h

/-- The text of the result. -/
def resultChars : Option FieldType → List Char
  | none => ['V']
  | some t => t.chars

theorem chars_eq (d : MethodDescriptor) : d.chars =
    '(' :: d.parameters.flatMap FieldType.chars ++ ')' :: resultChars d.result := rfl

theorem readResult_eq_ok {result : Option FieldType} (h : readResult cs = .ok (result, rest)) :
    cs = resultChars result ++ rest := by
  unfold readResult at h
  split at h
  · cases h; rfl
  · rcases hread : FieldType.read cs with fault | ⟨t, rest'⟩
    · rw [hread] at h
      cases h
    · rw [hread] at h
      cases h
      exact FieldType.read_eq_ok hread

/-- **A method descriptor that was read** from the front of some characters. -/
theorem read_eq_ok {d : MethodDescriptor} (h : read cs = .ok (d, rest)) :
    cs = d.chars ++ rest := by
  unfold read at h
  split at h
  · split at h
    · cases h
    · rename_i parameters behind hparameters
      split at h
      · cases h
      · rename_i result rest' hresult
        cases h
        obtain ⟨more, hmore, hbehind⟩ := readParametersOnto_eq_ok hparameters
        rw [List.reverse_nil, List.nil_append] at hmore
        rw [hbehind, readResult_eq_ok hresult, chars_eq, hmore]
        simp
  · cases h

/-- **A text that was parsed** is the text of the descriptor. -/
theorem parse_eq_ok {text : String} {d : MethodDescriptor} (h : parse text = .ok d) :
    d.render = text := by
  unfold parse CharReader.whole at h
  split at h
  · cases h
  · rename_i x hx
    cases h
    rw [render, ← List.append_nil d.chars, ← read_eq_ok hx, String.ofList_toList]
  · cases h

end MethodDescriptor

/-! ## Short names -/

/-- A part of a text takes no more bytes than the text. -/
theorem ShortText.of_infix {part text : String} (h : ShortText text)
    (hpart : part.toList <:+: text.toList) : ShortText part := by
  obtain ⟨front, behind, hsplit⟩ := hpart
  unfold ShortText ModifiedUtf8.encode at h ⊢
  rw [← hsplit] at h
  simp only [List.flatMap_append, List.length_append] at h
  omega

/-- The name in the type of a variable is a part of the text of the type. -/
theorem FieldType.shortName_localType {π : Type} {t : FieldType} (h : ShortText t.render) :
    (t.localType (π := π)).ShortName := by
  unfold localType
  split
  case h_5 name =>
    refine h.of_infix ?_
    rw [render, String.toList_ofList]
    exact ⟨['L'], [';'], rfl⟩
  case h_6 => exact h
  all_goals trivial

/-- The text of the type of a parameter is a part of the text of the descriptor. -/
theorem MethodDescriptor.infix_render {m : MethodDescriptor} {t : FieldType}
    (ht : t ∈ m.parameters) : t.render.toList <:+: m.render.toList := by
  obtain ⟨before, after, hsplit⟩ := List.append_of_mem ht
  rw [MethodDescriptor.render, FieldType.render, String.toList_ofList, String.toList_ofList,
    MethodDescriptor.chars_eq, hsplit]
  refine ⟨'(' :: before.flatMap FieldType.chars, after.flatMap FieldType.chars ++
    ')' :: MethodDescriptor.resultChars m.result, ?_⟩
  simp

/-- **The types of the receiver and the arguments** have names that fit into constants. -/
theorem DeclaredMethod.shortName_implicit {m : DeclaredMethod} (howner : ShortText m.owner.text)
    (hdescriptor : ShortText m.descriptor.render) : ∀ t ∈ m.implicit, t.ShortName := by
  intro t ht
  rw [implicit, List.mem_append] at ht
  obtain ht | ht := ht
  · split at ht
    · rw [List.mem_singleton.1 ht, receiver]
      split
      · trivial
      · exact howner
    · cases ht
  · obtain ⟨p, hp, rfl⟩ := List.mem_map.1 ht
    exact FieldType.shortName_localType (hdescriptor.of_infix (MethodDescriptor.infix_render hp))

end FreshLocal
