import FreshLocal.Proofs.DescriptorText

/-!
# Descriptors have one text

Parameters stand in a descriptor one behind the other, with nothing between them,
and a class name goes on to the next semicolon. Still no text is read in two ways:
each reader takes a type from a text if and only if the text begins with that of
the type (`CharReader.Exact`), whatever follows.

**Argument.** A reader that took a type took its text (`Proofs.DescriptorText`). For
the other direction each reader has to stop where the text of the type ends. The
first character tells what follows: a bracket, a letter of a primitive type, the `L`
of a class, the parenthesis behind the parameters or the `V` of no result, all
different. A name holds no semicolon, as none of its segments does.

* `CharReader.Exact`: **what a reader takes** is what is written for the value.
* `BaseType.exact_read`, `BinaryName.exact_read`, `ElementType.exact_read`,
  `FieldType.exact_read`, `MethodDescriptor.exact_read`: the readers are exact.
* `MethodDescriptor.parse_eq_ok_iff`: **parsing and rendering** are inverse to each other.
-/

namespace FreshLocal

variable {α : Type} {cs rest : List Char}

/-! ## Exact readers -/

namespace CharReader

variable {r : CharReader α} {chars : α → List Char} {x y : α}

/-- The reader takes a value from the front of a text exactly if the text begins with the
characters of the value. -/
def Exact (r : CharReader α) (chars : α → List Char) : Prop :=
  ∀ cs x rest, r cs = .ok (x, rest) ↔ cs = chars x ++ rest

/-- **The front of a text** belongs to one value only. -/
theorem Exact.unique (h : r.Exact chars) {rest rest' : List Char}
    (hsame : chars x ++ rest = chars y ++ rest') : x = y ∧ rest = rest' := by
  have hx : r (chars x ++ rest) = .ok (x, rest) := (h _ _ _).2 rfl
  have hy : r (chars x ++ rest) = .ok (y, rest') := (h _ _ _).2 hsame
  rw [hx, Except.ok.injEq, Prod.mk.injEq] at hy
  exact hy

/-- **A whole text** is taken for a value exactly if it is the text of the value. -/
theorem Exact.whole_eq_ok (h : r.Exact chars) {text : String} :
    r.whole text = .ok x ↔ String.ofList (chars x) = text := by
  rw [← String.toList_inj, String.toList_ofList, eq_comm]
  unfold whole
  have hiff := h text.toList
  rcases hr : r text.toList with fault | ⟨y, _ | ⟨c, behind⟩⟩
  · simp only [hr, reduceCtorEq, false_iff] at hiff ⊢
    exact fun htext => hiff x [] (by rw [htext, List.append_nil])
  · have hy : text.toList = chars y := by rw [(hiff y []).1 hr, List.append_nil]
    simp only [Except.ok.injEq, hy]
    constructor
    · rintro rfl; rfl
    · intro hsame
      exact (h.unique (congrArg (· ++ []) hsame)).1
  · have hy := (hiff y (c :: behind)).1 hr
    simp only [reduceCtorEq, false_iff]
    intro htext
    have hsame : chars y ++ (c :: behind) = chars x ++ [] := by rw [← hy, htext, List.append_nil]
    cases (h.unique hsame).2

end CharReader

/-! ## Primitive types and classes -/

theorem BaseType.ofLetter?_letter (type : BaseType) : ofLetter? type.letter = some type := by
  cases type <;> rfl

theorem BaseType.exact_read : CharReader.Exact read fun type => [type.letter] := by
  intro cs type rest
  refine ⟨read_eq_ok, ?_⟩
  rintro rfl
  simp only [List.singleton_append, read, ofLetter?_letter]

namespace BinaryName

/-- A segment that is finished stays one. -/
theorem mem_segmentsOnto_of_done {s : List Char} (chars segment : List Char)
    {done : List (List Char)} (hs : s ∈ done) : s ∈ segmentsOnto chars segment done := by
  induction chars generalizing segment done with
  | nil => simp [segmentsOnto, hs]
  | cons c chars ih =>
    rw [segmentsOnto]
    split
    · exact ih [] (List.mem_cons_of_mem _ hs)
    · exact ih (c :: segment) hs

/-- Every character of a text is a slash or stands in one of its segments. -/
theorem mem_segmentsOnto {c : Char} (chars segment : List Char) (done : List (List Char))
    (hc : c ∈ chars ∨ c ∈ segment) : c = '/' ∨ ∃ s ∈ segmentsOnto chars segment done, c ∈ s := by
  induction chars generalizing segment done with
  | nil => exact .inr ⟨segment.reverse, by simp [segmentsOnto], by simpa using hc⟩
  | cons d chars ih =>
    rw [segmentsOnto]
    rw [List.mem_cons] at hc
    split
    · rename_i hd
      rcases hc with (rfl | hc) | hc
      · exact .inl hd
      · exact ih [] _ (.inl hc)
      · have hkept : segment.reverse ∈ segmentsOnto chars [] (segment.reverse :: done) :=
          mem_segmentsOnto_of_done chars [] (List.mem_cons_self ..)
        exact .inr ⟨segment.reverse, hkept, List.mem_reverse.2 hc⟩
    · refine ih (d :: segment) done ?_
      rw [List.mem_cons]
      tauto

/-- **No name holds an illegal character** but the slashes between its segments. -/
theorem not_mem_of_isIllegal (name : BinaryName) {c : Char}
    (hc : UnqualifiedName.isIllegal c = true) (hslash : c ≠ '/') : c ∉ name.text.toList := by
  intro hmem
  have hvalid := name.valid
  unfold fault? at hvalid
  split at hvalid
  · cases hvalid
  · rw [List.findSome?_eq_none_iff] at hvalid
    obtain hsame | ⟨s, hs, hin⟩ := mem_segmentsOnto name.text.toList [] [] (.inl hmem)
    · exact hslash hsame
    · have hlegal := hvalid s hs
      unfold UnqualifiedName.fault? at hlegal
      rw [if_pos (List.any_eq_true.2 ⟨c, hin, hc⟩)] at hlegal
      cases hlegal

/-- A name that is checked again is a name. -/
theorem ofText_text (name : BinaryName) : ofText name.text = .ok name := by
  unfold ofText
  split
  · rfl
  · rename_i fault hfault
    rw [name.valid] at hfault
    cases hfault

theorem exact_read : CharReader.Exact read chars := by
  intro cs name rest
  refine ⟨read_eq_ok, ?_⟩
  rintro rfl
  have hlegal : ∀ c ∈ name.text.toList, decide (c ≠ ';') = true := by
    intro c hc
    rw [decide_eq_true_eq]
    rintro rfl
    exact name.not_mem_of_isIllegal rfl (by decide) hc
  have hspan : (name.text.toList ++ ';' :: rest).span (fun c => decide (c ≠ ';')) =
      (name.text.toList, ';' :: rest) := by
    rw [List.span_eq_takeWhile_dropWhile, List.takeWhile_append_of_pos hlegal,
      List.dropWhile_append_of_pos hlegal, List.takeWhile_cons_of_neg (by simp),
      List.dropWhile_cons_of_neg (by simp), List.append_nil]
  simp only [chars, List.cons_append, List.append_assoc, List.nil_append, read, hspan,
    String.ofList_toList, ofText_text]

end BinaryName

/-! ## Field types -/

theorem BaseType.letter_ne (type : BaseType) :
    type.letter ≠ 'L' ∧ type.letter ≠ '[' ∧ type.letter ≠ ')' ∧ type.letter ≠ 'V' := by
  cases type <;> decide

theorem ElementType.exact_read : CharReader.Exact read chars := by
  intro cs e rest
  refine ⟨read_eq_ok, ?_⟩
  rintro rfl
  cases e with
  | primitive type =>
    have hread : BaseType.read (type.letter :: rest) = .ok (type, rest) :=
      (BaseType.exact_read _ _ _).2 rfl
    unfold read chars
    split
    · rename_i hL
      rw [List.singleton_append, List.cons.injEq] at hL
      exact absurd hL.1 type.letter_ne.1
    · rw [List.singleton_append, hread]
  | object name =>
    have hread : BinaryName.read (name.chars ++ rest) = .ok (name, rest) :=
      (BinaryName.exact_read _ _ _).2 rfl
    have hcons : name.chars ++ rest = 'L' :: (name.text.toList ++ [';'] ++ rest) := rfl
    rw [hcons] at hread
    simp only [chars, hcons, read, hread]

/-- An element type starts with a letter of its own, which is not that of anything else. -/
theorem ElementType.chars_cons (e : ElementType) :
    ∃ c tail, e.chars = c :: tail ∧ c ≠ '[' ∧ c ≠ ')' ∧ c ≠ 'V' := by
  cases e with
  | primitive type => exact ⟨type.letter, [], rfl, type.letter_ne.2⟩
  | object name => exact ⟨'L', name.text.toList ++ [';'], rfl, by decide⟩

theorem FieldType.exact_read : CharReader.Exact read chars := by
  intro cs t rest
  refine ⟨read_eq_ok, ?_⟩
  rintro rfl
  obtain ⟨dimensions, e⟩ := t
  have helement : ElementType.read (e.chars ++ rest) = .ok (e, rest) :=
    (ElementType.exact_read _ _ _).2 rfl
  have hbrackets : ∀ c ∈ List.replicate dimensions '[', decide (c = '[') = true := by
    intro c hc
    rw [decide_eq_true_eq]
    exact List.eq_of_mem_replicate hc
  obtain ⟨c, tail, htail, hc, -⟩ := e.chars_cons
  have htake : (e.chars ++ rest).takeWhile (fun c => decide (c = '[')) = [] := by
    rw [htail, List.cons_append, List.takeWhile_cons_of_neg (by simpa using hc)]
  have hdrop : (e.chars ++ rest).dropWhile (fun c => decide (c = '[')) = e.chars ++ rest := by
    rw [htail, List.cons_append, List.dropWhile_cons_of_neg (by simpa using hc)]
  simp only [read, chars, List.append_assoc, List.dropWhile_append_of_pos hbrackets, hdrop,
    helement, List.takeWhile_append_of_pos hbrackets, htake, List.append_nil,
    List.length_replicate]

/-- A field type starts neither with a parenthesis nor with the letter of no result. -/
theorem FieldType.chars_cons (t : FieldType) :
    ∃ c tail, t.chars = c :: tail ∧ c ≠ ')' ∧ c ≠ 'V' := by
  obtain ⟨_ | dimensions, e⟩ := t
  · obtain ⟨c, tail, htail, -, hc⟩ := e.chars_cons
    exact ⟨c, tail, htail, hc⟩
  · exact ⟨'[', List.replicate dimensions '[' ++ e.chars, rfl, by decide⟩

/-! ## Method descriptors -/

namespace MethodDescriptor

/-- **The parameters** are taken up to the parenthesis behind them. -/
theorem readParametersOnto_chars (ts done : List FieldType) {fuel : Nat}
    (hfuel : ts.length ≤ fuel) :
    readParametersOnto fuel done (ts.flatMap FieldType.chars ++ ')' :: rest) =
      .ok (done.reverse ++ ts, rest) := by
  induction ts generalizing fuel done with
  | nil => cases fuel <;> simp [readParametersOnto]
  | cons t ts ih =>
    obtain _ | fuel := fuel
    · cases hfuel
    rw [List.length_cons] at hfuel
    have hread : FieldType.read (t.chars ++ (ts.flatMap FieldType.chars ++ ')' :: rest)) =
      .ok (t, ts.flatMap FieldType.chars ++ ')' :: rest) := (FieldType.exact_read _ _ _).2 rfl
    obtain ⟨c, tail, htail, hc, -⟩ := t.chars_cons
    rw [List.flatMap_cons, List.append_assoc]
    rw [htail, List.cons_append] at hread ⊢
    rw [readParametersOnto, hread]
    · dsimp only
      rw [ih (t :: done) (by omega)]
      simp
    · exact List.cons_ne_nil _ _
    · exact fun _ hparenthesis => hc (List.cons.inj hparenthesis).1

theorem exact_readResult : CharReader.Exact readResult resultChars := by
  intro cs result rest
  refine ⟨readResult_eq_ok, ?_⟩
  rintro rfl
  cases result with
  | none => rfl
  | some t =>
    have hread : FieldType.read (t.chars ++ rest) = .ok (t, rest) :=
      (FieldType.exact_read _ _ _).2 rfl
    obtain ⟨c, tail, htail, -, hc⟩ := t.chars_cons
    unfold readResult resultChars
    dsimp only
    split
    · rename_i hV
      rw [htail, List.cons_append, List.cons.injEq] at hV
      exact absurd hV.1 hc
    · rw [hread]

/-- Each parameter takes a character at least, so there are no more of them than characters. -/
theorem length_le_parameters (ts : List FieldType) :
    ts.length ≤ (ts.flatMap FieldType.chars).length := by
  induction ts with
  | nil => rfl
  | cons t ts ih =>
    obtain ⟨c, tail, htail, -⟩ := t.chars_cons
    rw [List.flatMap_cons, List.length_append, List.length_cons, htail, List.length_cons]
    omega

theorem exact_read : CharReader.Exact read chars := by
  intro cs d rest
  refine ⟨read_eq_ok, ?_⟩
  rintro rfl
  have hlength := length_le_parameters d.parameters
  have hparameters : readParameters (d.parameters.flatMap FieldType.chars ++
      ')' :: (resultChars d.result ++ rest)) =
        .ok (d.parameters, resultChars d.result ++ rest) := by
    rw [readParameters, readParametersOnto_chars _ _ (by rw [List.length_append]; omega)]
    rfl
  have hresult : readResult (resultChars d.result ++ rest) = .ok (d.result, rest) :=
    (exact_readResult _ _ _).2 rfl
  simp only [chars_eq, List.cons_append, List.append_assoc, read, hparameters, hresult]

/-- **Parsing and rendering are inverse to each other.** A text is parsed as a method descriptor
if and only if it is the text of the descriptor, and the same is true of field types. So the texts
that are accepted are those that are rendered, and no two types have one text. -/
theorem parse_eq_ok_iff :
    (∀ (text : String) (d : MethodDescriptor), parse text = .ok d ↔ d.render = text) ∧
      (∀ (text : String) (t : FieldType), FieldType.parse text = .ok t ↔ t.render = text) ∧
      render.Injective ∧ FieldType.render.Injective := by
  have hmethod (text : String) (d : MethodDescriptor) : parse text = .ok d ↔ d.render = text :=
    exact_read.whole_eq_ok
  have hfield (text : String) (t : FieldType) : FieldType.parse text = .ok t ↔ t.render = text :=
    FieldType.exact_read.whole_eq_ok
  refine ⟨hmethod, hfield, fun d d' hsame => ?_, fun t t' hsame => ?_⟩
  · have hd := (hmethod d.render d).2 rfl
    rw [hsame, (hmethod d'.render d').2 rfl, Except.ok.injEq] at hd
    exact hd.symm
  · have ht := (hfield t.render t).2 rfl
    rw [hsame, (hfield t'.render t').2 rfl, Except.ok.injEq] at ht
    exact ht.symm

end MethodDescriptor

end FreshLocal
