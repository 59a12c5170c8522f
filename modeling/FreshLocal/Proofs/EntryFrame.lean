import FreshLocal.Proofs.DescriptorReaders
import FreshLocal.Proofs.KeptFrames

/-!
# The frame at the start of a method

When a method is entered, its locals are the receiver and one entry for each parameter.
New variables go behind the arguments. Where these end is counted from the descriptor,
by the widths of its types; what they are is listed as in a frame, and an entry of a frame
has a width of its own. The two are worked out apart, and the first frame of a body, which
is relative to the locals at the start, needs them to agree.

**Argument.** An entry is as wide as its parameter, so any number of parameters takes as
many slots either way (`slotCount_map_localType`), and the locals at the start end exactly at
the boundary. Nothing lies across it and nothing is missing in front of it. What a
first frame puts behind these locals is behind the boundary, and the new variables come
in between.

* `DeclaredMethod.slotCount_implicit`: **the boundary is where the arguments end**.
* `FieldType.EntersAs`, `FieldType.entersAs_localType`: how an entry stands for a parameter.
* `Insertion.inMethod_askAll`: what a run of requests makes of an insertion, apart from frames.
* `Insertion.takeFrame_entry`: **a first frame is carried over**, with nothing lost or filled up.
-/

namespace FreshLocal

/-- The locals that a frame puts behind those before it, if it keeps all of these. -/
def Frame.added? {κ π : Type} : Frame κ π → Option (List (VerificationType κ π))
  | same | sameOne _ => some []
  | append more => some more
  | chop _ | full _ _ => none

/-- The values of the type are references, to arrays or to other objects. -/
def FieldType.IsReference (t : FieldType) : Prop := 0 < t.dimensions ∨ ∃ name, t = .object name

/-- **How an entry stands for a parameter.** It is as wide as the parameter. It has a name if this
is a reference: an array has the text that is read as its type, and a class its own name. By that
name it is told from all other types. -/
structure FieldType.EntersAs (t : FieldType) (entry : CodeType) : Prop where
  width : entry.width = t.width
  name : ∀ text, entry = .object text ↔
    (0 < t.dimensions ∧ FieldType.parse text = .ok t) ∨ ∃ name, t = .object name ∧ name.text = text
  alone : t.IsReference → ∀ t' : FieldType, t'.localType = entry → t' = t

/-- The method with no parameter behind the first `i`. -/
def DeclaredMethod.upTo (m : DeclaredMethod) (i : Nat) : DeclaredMethod :=
  { m with descriptor := { m.descriptor with parameters := m.descriptor.parameters.take i } }

/-- The type of the new variable, if that is what was asked for and granted. -/
def SlotRequest.granted? : SlotRequest → SlotAnswer → Option FieldType
  | allocate type, .slot (.ok _) => some type
  | _, _ => none

/-- The types of the new variables that were granted, in the order of the requests. -/
def SlotRequest.granted (asked : List SlotRequest) (answers : List SlotAnswer) : List FieldType :=
  (asked.zip answers).filterMap fun x => x.1.granted? x.2

/-! ## Entries -/

namespace FieldType

variable {t t' : FieldType} {text : String}

theorem parse_eq_ok : parse text = .ok t ↔ t.render = text := exact_read.whole_eq_ok

/-- **Which entries have a name**, and which name. -/
theorem localType_eq_object {π : Type} : (t.localType : VerificationType String π) = .object text ↔
    (0 < t.dimensions ∧ t.render = text) ∨ ∃ name, t = .object name ∧ name.text = text := by
  obtain ⟨_ | n, e⟩ := t
  · cases e with
    | primitive type => cases type <;> simp [localType, object]
    | object name => simp [localType, object]
  · simp [localType, object]

/-- No class has the text of an array as its name. -/
theorem render_ne_text (ht : 0 < t.dimensions) (name : BinaryName) : t.render ≠ name.text := by
  intro hsame
  obtain ⟨n, hn⟩ := Nat.exists_eq_add_of_lt ht
  have hbracket : '[' ∈ t.render.toList := by
    rw [render, String.toList_ofList, chars, hn, Nat.zero_add, List.replicate_succ]
    exact List.mem_cons_self
  rw [hsame] at hbracket
  exact name.not_mem_of_isIllegal rfl (by decide) hbracket

/-- **A name tells a type** among all types that have names. -/
theorem eq_of_localType_eq {π : Type} (h : (t.localType : VerificationType String π) = .object text)
    (h' : (t'.localType : VerificationType String π) = .object text) : t' = t := by
  rw [localType_eq_object] at h h'
  rcases h with ⟨hdim, hrender⟩ | ⟨name, rfl, hname⟩ <;>
    rcases h' with ⟨hdim', hrender'⟩ | ⟨name', rfl, hname'⟩
  · -- a text is read as one type only
    have hread := parse_eq_ok.2 hrender
    rw [parse_eq_ok.2 hrender', Except.ok.injEq] at hread
    exact hread
  · exact absurd (hrender.trans hname'.symm) (render_ne_text hdim name')
  · exact absurd (hrender'.trans hname.symm) (render_ne_text hdim' name)
  · have hsame : name' = name := by
      cases name'
      cases name
      simpa using hname'.trans hname.symm
    rw [hsame]

/-- **The entry of a type** stands for it. -/
theorem entersAs_localType (t : FieldType) : t.EntersAs t.localType := by
  refine ⟨t.width_localType, fun text => ?_, fun ht t' hsame => ?_⟩
  · rw [localType_eq_object, parse_eq_ok]
  · obtain ⟨text, htext⟩ : ∃ text, (t.localType : CodeType) = .object text := by
      obtain hdim | ⟨name, hname⟩ := ht
      · exact ⟨t.render, localType_eq_object.2 (.inl ⟨hdim, rfl⟩)⟩
      · exact ⟨name.text, localType_eq_object.2 (.inr ⟨name, hname, rfl⟩)⟩
    exact eq_of_localType_eq htext (hsame.trans htext)

end FieldType

/-! ## Locals behind others -/

section

variable {κ π : Type} {boundary : Nat} {before inserted locals more : List (VerificationType κ π)}

theorem Frame.locals?_of_added? {f : Frame κ π} (hf : f.added? = some more) :
    f.locals? before = some (before ++ more) := by
  cases f with
  | same | sameOne _ => cases hf; rw [List.append_nil]; rfl
  | append _ => cases hf; rfl
  | chop _ | full _ _ => cases hf

/-- **Locals that end at the boundary** have the new ones right behind them. -/
theorem insertLocals_of_slotCount (h : slotCount locals = boundary) :
    insertLocals boundary inserted (locals ++ more) = .ok (locals ++ inserted ++ more) :=
  insertLocals_eq_ok.2 ⟨locals, more, 0, rfl, h, .inl rfl, by simp⟩

end

/-! ## The locals at the start -/

namespace DeclaredMethod

variable {m : DeclaredMethod} {i : Nat} {t : FieldType}

theorem width_receiver (m : DeclaredMethod) : m.receiver.width = 1 := by
  unfold receiver
  split <;> rfl

/-- **The boundary is where the arguments end.** -/
theorem slotCount_implicit (m : DeclaredMethod) : slotCount m.implicit = m.first := by
  have hreceiver : slotCount (if m.hasReceiver then [m.receiver] else []) =
      if m.hasReceiver then 1 else 0 := by
    split
    · rw [slotCount_cons, slotCount_nil, width_receiver]
    · rfl
  rw [implicit, slotCount_append, slotCount_map_localType, hreceiver, first,
    MethodDescriptor.parameterWidth, List.sum, List.foldr_map]

/-- The entry of a parameter comes behind those of the receiver and the parameters before it. -/
theorem implicit_eq (ht : m.descriptor.parameters[i]? = some t) :
    m.implicit = (m.upTo i).implicit ++
      t.localType :: (m.descriptor.parameters.drop (i + 1)).map FieldType.localType := by
  obtain ⟨hi, rfl⟩ := List.getElem?_eq_some_iff.1 ht
  have hsplit : m.descriptor.parameters = m.descriptor.parameters.take i ++
      m.descriptor.parameters[i] :: m.descriptor.parameters.drop (i + 1) := by
    rw [← List.drop_eq_getElem_cons hi, List.take_append_drop]
  have hparameters := congrArg (List.map (FieldType.localType (π := Label))) hsplit
  rw [List.map_append, List.map_cons] at hparameters
  rw [implicit, hparameters, ← List.append_assoc]
  rfl

/-- A parameter is in the frame where instructions find it. -/
theorem slotAt_implicit (ht : m.descriptor.parameters[i]? = some t) :
    slotAt m.implicit (m.upTo i).first = .value t.localType := by
  rw [implicit_eq ht, ← slotCount_implicit]
  exact slotAt_value _ _ _

end DeclaredMethod

/-! ## Requests -/

namespace Insertion

variable {p : Insertion} {m : DeclaredMethod} {types : List FieldType} {f : CodeFrame}
  {more : List CodeType}

/-- **What is known of an insertion in a method**, whatever frames it saw: its locals at the start
and its boundary are those of the method, and it has the entries of some new variables. -/
structure InMethod (m : DeclaredMethod) (types : List FieldType) (p : Insertion) : Prop where
  implicit : p.implicit = m.implicit
  boundary : p.boundary = m.first
  inserted : p.inserted = types.map FieldType.localType

/-- **One request** adds a variable if it was granted. -/
theorem InMethod.ask (hp : p.InMethod m types) (r : SlotRequest) :
    (p.ask r).1.InMethod m (types ++ (r.granted? (p.ask r).2).toList) := by
  cases r with
  | allocate type =>
    simp only [Insertion.ask]
    cases ha : p.allocate type with
    | error fault => simpa [SlotRequest.granted?] using hp
    | ok x =>
      obtain ⟨slot, q⟩ := x
      obtain ⟨-, -, rfl⟩ := allocate_eq_ok.1 ha
      exact ⟨hp.implicit, hp.boundary, by simp [SlotRequest.granted?, hp.inserted]⟩
  | relocate slot | limit declared => simpa [SlotRequest.granted?, Insertion.ask] using hp
  | frame f =>
    have hsame := forget_takeFrame p f
    have hnone : (SlotRequest.frame f).granted? (p.ask (.frame f)).2 = none := rfl
    rw [hnone, Option.toList_none, List.append_nil, ask_frame]
    exact ⟨(congrArg Insertion.implicit hsame).trans hp.implicit,
      (congrArg Insertion.boundary hsame).trans hp.boundary,
      (congrArg Insertion.inserted hsame).trans hp.inserted⟩

/-- **A run of requests** adds the variables that were granted. -/
theorem InMethod.askAll (hp : p.InMethod m types) (asked : List SlotRequest) :
    (p.askAll asked).1.InMethod m (types ++ SlotRequest.granted asked (p.askAll asked).2) := by
  induction asked generalizing p types with
  | nil => simpa [SlotRequest.granted, Insertion.askAll] using hp
  | cons r rest ih =>
    have hrest := ih (hp.ask r)
    rw [List.append_assoc] at hrest
    have hgranted : SlotRequest.granted (r :: rest) (p.askAll (r :: rest)).2 =
        (r.granted? (p.ask r).2).toList ++
          SlotRequest.granted rest ((p.ask r).1.askAll rest).2 := by
      rw [askAll_cons, SlotRequest.granted, List.zip_cons_cons, List.filterMap_cons]
      dsimp only
      cases r.granted? (p.ask r).2 <;> rfl
    rw [hgranted]
    exact hrest

theorem inMethod_askAll (m : DeclaredMethod) (policy : RelativeFrames) (asked : List SlotRequest) :
    ((ofMethod m policy).askAll asked).1.InMethod m
      (SlotRequest.granted asked ((ofMethod m policy).askAll asked).2) := by
  have hstart : (ofMethod m policy).InMethod m [] := ⟨rfl, rfl, rfl⟩
  exact hstart.askAll asked

/-! ## A first frame -/

/-- **A frame that counts as the first** and keeps the locals at the start. -/
theorem InMethod.takeFrame_eq (hp : p.InMethod m types) (hfirst : p.previous = none)
    (hf : f.added? = some more) :
    p.takeFrame f = ({ p with previous := some (m.implicit ++ more) },
      .ok (.full (m.implicit ++ types.map FieldType.localType ++ more) f.stack)) := by
  have hbefore : p.before = m.implicit := by rw [before, hfirst, Option.getD_none, hp.implicit]
  have hlocals : f.locals? p.before = some (m.implicit ++ more) := by
    rw [hbefore]
    exact Frame.locals?_of_added? hf
  have hroom : insertLocals p.boundary p.inserted (m.implicit ++ more) =
      .ok (m.implicit ++ types.map FieldType.localType ++ more) := by
    rw [hp.inserted]
    exact insertLocals_of_slotCount (m.slotCount_implicit.trans hp.boundary.symm)
  have hcarry := carry_of_room hlocals hroom
  simp only [keeps, hfirst, Option.isSome_none, Bool.false_and, Bool.false_eq_true, if_false,
    false_and, and_false] at hcarry
  rw [takeFrame, hcarry]

/-- **A first frame is carried over.** The locals at the start of a method take exactly the slots
in front of the boundary. Each parameter has an entry among them that stands for it, behind those
of the receiver and the parameters before it, at the slot where it is when the method is entered.
Let an insertion be asked for variables, slots, limits and frames, and let no frame have been
carried over at last. Then a frame that keeps the locals before it is never refused. What is sent
lists the locals at the start, then the new variables that were granted and then the locals that
the frame adds, and nothing else; and without the new variables they are the locals that the next
frame is relative to. -/
theorem takeFrame_entry (m : DeclaredMethod) :
    slotCount m.implicit = m.first ∧
    (∀ i t, m.descriptor.parameters[i]? = some t → ∃ entry, t.EntersAs entry ∧
      (m.upTo i).implicit ++ [entry] <+: m.implicit ∧
      slotAt m.implicit (m.upTo i).first = .value entry) ∧
    ∀ policy asked p answers, (ofMethod m policy).askAll asked = (p, answers) →
      (∀ g, (ofMethod m policy).lastFrame? asked ≠ some (.ok g)) →
      ∀ f more, f.added? = some more →
        let inserted := (SlotRequest.granted asked answers).map FieldType.localType
        p.inserted = inserted ∧
          p.takeFrame f = ({ p with previous := some (m.implicit ++ more) },
            .ok (.full (m.implicit ++ inserted ++ more) f.stack)) := by
  refine ⟨m.slotCount_implicit, fun i t ht => ?_,
    fun policy asked p answers hp hlast f more hf => ?_⟩
  · have hprefix : (m.upTo i).implicit ++ [t.localType] <+: m.implicit :=
      ⟨_, (List.append_cons _ _ _).symm.trans (DeclaredMethod.implicit_eq ht).symm⟩
    exact ⟨t.localType, t.entersAs_localType, hprefix, DeclaredMethod.slotAt_implicit ht⟩
  · have hmethod := inMethod_askAll m policy asked
    have hknown := previous_askAll (ofMethod m policy) asked
    rw [hp] at hmethod hknown
    have hfirst : p.previous = none := by
      rw [← Option.not_isSome_iff_eq_none, hknown]
      rintro (⟨g, hg⟩ | ⟨-, hstart⟩)
      · exact hlast g hg
      · cases hstart
    exact ⟨hmethod.inserted, hmethod.takeFrame_eq hfirst hf⟩

/-- A constructor with a `long` and an array as its arguments. -/
def sampleConstructor : DeclaredMethod where
  flags := .ofBits 0x0001
  name := ⟨"<init>", by decide⟩
  descriptor := ⟨[.ofBase .long, ⟨1, .object ⟨"java/lang/String", by decide⟩⟩], none⟩
  owner := sampleMethod.owner

/-- Between two new variables of a constructor, a frame that removes nine locals is refused. One
that adds a `float` counts as the first then, and the `float` comes behind both variables. -/
theorem takeFrame_entry_constructor :
    let asked : List SlotRequest :=
      [.allocate (.ofBase .double), .frame (.chop 9), .allocate (.ofBase .int)]
    let p := (ofMethod sampleConstructor .refuse).askAll asked
    sampleConstructor.first = 4 ∧ slotCount sampleConstructor.implicit = 4 ∧
      slotAt sampleConstructor.implicit 3 = .value (.object "[Ljava/lang/String;") ∧
      p.2 = [.slot (.ok 4), .frame (.error (.unsupportedFrame (.chopUnderflow 9 3))),
        .slot (.ok 6)] ∧
      (p.1.takeFrame (.append [.float])).2 = .ok (.full [.uninitializedThis, .long,
        .object "[Ljava/lang/String;", .double, .integer, .float] []) := by
  intro asked p
  obtain ⟨hcount, hparameter, hframe⟩ := takeFrame_entry sampleConstructor
  obtain ⟨entry, hentry, -, hslot⟩ := hparameter 1 _ rfl
  have harray : entry = .object "[Ljava/lang/String;" :=
    (hentry.name _).2 (.inl ⟨by decide, by rfl⟩)
  obtain ⟨-, hsent⟩ :=
    hframe .refuse asked _ _ rfl (fun g hg => by cases hg) (.append [.float]) _ rfl
  exact ⟨rfl, hcount, harray ▸ hslot, rfl, congrArg Prod.snd hsent⟩

end Insertion

end FreshLocal
