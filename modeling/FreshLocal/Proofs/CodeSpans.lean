import FreshLocal.Proofs.Disassembly

/-!
# How code is cut into instructions

Code is read instruction by instruction until no byte is ahead. How many bytes an
instruction takes is known only once it was read: it may stand behind a `wide`, or be
a switch, with padding and with as many targets as it says. Still each byte belongs
to exactly one of them.

**Argument.** Each instruction takes at least the byte of its opcode, so the bytes
ahead become fewer, and the reads that are allowed, one for each byte, are enough.
What one read leaves ahead is what the next one starts with, so nothing is passed
over and nothing is read twice. Starts therefore ascend, and binary search finds
them.

* `Scans`: **the loop without a bound**, for bytes of any kind.
* `scans_iff`: the reads that are allowed are enough.
* `spans`: the bytes from each start to the next.
* `Cut`: what instructions are to the code they were read from.
* `disassemble_cut`: **the loop ends, and the code is cut into what it finds**.
-/

namespace FreshLocal

open Reader

variable {length fuel o : Nat} {code : Bytes} {c : Cursor} {ops : List (Nat × Operation Nat)}
  {r r' : Except DecodeFault (List (Nat × Operation Nat))}

/-- **The loop without a bound**: instructions are read until no byte is ahead or one is refused. -/
inductive Scans (length : Nat) : Cursor → Except DecodeFault (List (Nat × Operation Nat)) → Prop
  | done {c : Cursor} (hahead : c.ahead = []) : Scans length c (.ok [])
  | refused {c : Cursor} {fault : DecodeFault} (hahead : c.ahead ≠ [])
      (h : Operation.read length c = .error fault) : Scans length c (.error fault)
  | next {c c' : Cursor} {x : Nat × Operation Nat}
      {r : Except DecodeFault (List (Nat × Operation Nat))} (hahead : c.ahead ≠ [])
      (h : Operation.read length c = .ok (x, c')) (hrest : Scans length c' r) :
      Scans length c ((x :: ·) <$> r)

/-- Each target of a branch has to be the start of an instruction. -/
def requireTargets (ops : List (Nat × Operation Nat)) :
    Except DecodeFault (List (Nat × Operation Nat)) := do
  (ops.flatMap (·.2.targets)).forM (requireStart (startOffsets ops))
  pure ops

/-! ## The loop ends -/

/-- The loop has one outcome. -/
theorem Scans.unique (h : Scans length c r) (h' : Scans length c r') : r' = r := by
  induction h generalizing r' with
  | done hahead =>
    cases h' with
    | done _ => rfl
    | refused hne _ | next hne _ _ => exact absurd hahead hne
  | refused hne hread =>
    cases h' with
    | done hahead => exact absurd hahead hne
    | refused _ h => rw [hread] at h; cases h; rfl
    | next _ h _ => rw [hread] at h; cases h
  | next hne hread _ ih =>
    cases h' with
    | done hahead => exact absurd hahead hne
    | refused _ h => rw [hread] at h; cases h
    | next _ h hrest =>
      rw [hread] at h
      cases h
      rw [ih hrest]

/-- **The reads that are allowed are enough**, if they are as many as the bytes ahead. -/
theorem scans_untilEndOnto (hfuel : c.ahead.length ≤ fuel) (done : List (Nat × Operation Nat)) :
    ∃ r, Scans length c r ∧
      Prod.fst <$> untilEndOnto (Operation.read length) fuel done c =
        (done.reverse ++ ·) <$> r := by
  induction fuel generalizing c done with
  | zero =>
    have hahead : c.ahead = [] := List.length_eq_zero_iff.1 (Nat.le_zero.1 hfuel)
    refine ⟨.ok [], .done hahead, ?_⟩
    simp [untilEndOnto, Functor.map, Except.map]
  | succ fuel ih =>
    simp only [untilEndOnto]
    split
    · rename_i hempty
      refine ⟨.ok [], .done (List.isEmpty_iff.1 hempty), ?_⟩
      simp [Functor.map, Except.map]
    · rename_i hempty
      have hne : c.ahead ≠ [] := fun hnil => hempty (List.isEmpty_iff.2 hnil)
      cases hread : Operation.read length c with
      | error fault => exact ⟨.error fault, .refused hne hread, rfl⟩
      | ok y =>
        obtain ⟨x, c'⟩ := y
        obtain ⟨-, -, taken, htaken, hahead, -⟩ := Operation.read_eq_ok hread
        have hpos : 0 < taken.length := List.length_pos_iff.2 htaken
        rw [hahead, List.length_append] at hfuel
        obtain ⟨r, hscans, hr⟩ := @ih c' (by omega) (x :: done)
        refine ⟨(x :: ·) <$> r, .next hne hread hscans, ?_⟩
        dsimp only
        rw [hr]
        cases r <;> simp [Functor.map, Except.map]

/-- Targets are looked at in order, and the first one that is no start is the fault. -/
theorem forM_requireStart (starts : Array Nat) (targets : List Nat) :
    targets.forM (requireStart starts) = match targets.find? (!hasStart starts ·) with
      | some target => .error (.invalidCodeOffset target)
      | none => .ok () := by
  induction targets with
  | nil => rfl
  | cons t targets ih =>
    change (requireStart starts t >>= fun _ => targets.forM (requireStart starts)) = _
    rw [List.find?_cons, requireStart]
    cases hasStart starts t with
    | true => exact ih
    | false => rfl

/-- **Code of any kind** is read by the loop, and then the targets are looked at. -/
theorem scans_iff (code : Bytes) : ∃ r, (∀ r', Scans code.length (.start code) r' ↔ r' = r) ∧
    disassemble code = r >>= requireTargets := by
  obtain ⟨r, hscans, hr⟩ := @scans_untilEndOnto code.length code.length (.start code)
    (Nat.le_refl _) []
  refine ⟨r, fun r' => ⟨hscans.unique, fun h => h ▸ hscans⟩, ?_⟩
  have hread : Prod.fst <$> untilEnd (Operation.read code.length) (.start code) = r := by
    refine hr.trans ?_
    cases r <;> rfl
  unfold disassemble
  rw [← hread]
  cases untilEnd (Operation.read code.length) (.start code) with
  | error fault => rfl
  | ok y =>
    obtain ⟨ops, c⟩ := y
    simp only [Functor.map, Except.map, bind, Except.bind, requireTargets, forM_requireStart]
    cases (ops.flatMap (·.2.targets)).find? (!hasStart (startOffsets ops) ·) <;> rfl

/-! ## What is found covers the code -/

/-- From the offset `o` on, the code is that of the instructions in a row: each one is read where it
starts, and the read ends where the next one starts. -/
def Spanned (code : Bytes) : (o : Nat) → List (Nat × Operation Nat) → Prop
  | o, [] => o = code.length
  | o, x :: rest => x.1 = o ∧ ∃ stop, o < stop ∧ stop ≤ code.length ∧
    Operation.read code.length ⟨o, code.drop o⟩ = .ok (x, ⟨stop, code.drop stop⟩) ∧
      Spanned code stop rest

/-- **What the loop finds** stands in a row. -/
theorem Scans.spanned (h : Scans code.length c r) (hr : r = .ok ops) (hle : c.offset ≤ code.length)
    (hc : c.ahead = code.drop c.offset) : Spanned code c.offset ops := by
  induction h generalizing ops with
  | done hahead =>
    cases hr
    rw [hahead, eq_comm, List.drop_eq_nil_iff] at hc
    exact Nat.le_antisymm hle hc
  | refused _ _ => cases hr
  | @next c c' x r hne hread _ ih =>
    obtain ⟨more, hmore, rfl⟩ := Except.map_eq_ok.1 hr
    obtain ⟨hstart, -, taken, htaken, hahead, hoffset⟩ := Operation.read_eq_ok hread
    have hpos : 0 < taken.length := List.length_pos_iff.2 htaken
    have hlength : taken.length + c'.ahead.length = code.length - c.offset := by
      rw [← List.length_append, ← hahead, hc, List.length_drop]
    have hc' : c'.ahead = code.drop c'.offset := by
      rw [hoffset, ← List.drop_drop, ← hc, hahead, List.drop_left]
    refine ⟨hstart, c'.offset, by omega, by omega, ?_, ih hmore (by omega) hc'⟩
    rw [← hc, ← hc']
    exact hread

/-- **The instructions of code that can be read** stand in a row from its first byte on. -/
theorem spanned_of_disassemble (h : disassemble code = .ok ops) : Spanned code 0 ops := by
  obtain ⟨r, hscans, hr⟩ := scans_iff code
  obtain ⟨found, rfl, hfound⟩ := Except.bind_eq_ok.1 (hr ▸ h)
  obtain ⟨-, -, hsame⟩ := Except.bind_eq_ok.1 hfound
  cases hsame
  exact ((hscans _).2 rfl).spanned rfl (Nat.zero_le _) rfl

/-- The bytes from each start to the next one, and from the last one to the end of the code. -/
def spans (code : Bytes) : List (Nat × Operation Nat) → List Bytes
  | [] => []
  | x :: rest =>
    (code.drop x.1).take ((rest.head?.map Prod.fst).getD code.length - x.1) :: spans code rest

namespace Spanned

theorem head (h : Spanned code o ops) : (ops.head?.map Prod.fst).getD code.length = o := by
  cases ops with
  | nil => exact h.symm
  | cons x rest => exact h.1

/-- **The spans are the code**, without a gap and without a byte that is in two of them. -/
theorem flatten_spans (h : Spanned code o ops) : (spans code ops).flatten = code.drop o := by
  induction ops generalizing o with
  | nil =>
    rw [Spanned] at h
    rw [h, List.drop_length]
    rfl
  | cons x rest ih =>
    obtain ⟨rfl, stop, hlt, -, -, hrest⟩ := h
    rw [spans, hrest.head, List.flatten_cons, ih hrest]
    have hstop : code.drop stop = (code.drop x.1).drop (stop - x.1) := by
      rw [List.drop_drop, Nat.add_sub_cancel' (Nat.le_of_lt hlt)]
    rw [hstop, List.take_append_drop]

/-- **Each span** is what is taken by the read of its instruction. -/
theorem taken {i : Nat} {x : Nat × Operation Nat} (h : Spanned code o ops)
    (hx : ops[i]? = some x) :
    let stop := (ops[i + 1]?.map Prod.fst).getD code.length
    x.1 < stop ∧ stop ≤ code.length ∧
      (spans code ops)[i]? = some ((code.drop x.1).take (stop - x.1)) ∧
      Operation.read code.length ⟨x.1, code.drop x.1⟩ = .ok (x, ⟨stop, code.drop stop⟩) := by
  induction ops generalizing o i with
  | nil => cases hx
  | cons y rest ih =>
    obtain ⟨rfl, stop, hlt, hle, hread, hrest⟩ := h
    cases i with
    | zero =>
      cases hx
      have hnext : (rest[0]?.map Prod.fst).getD code.length = stop := by
        rw [← List.head?_eq_getElem?, hrest.head]
      simp only [List.getElem?_cons_succ, hnext]
      refine ⟨hlt, hle, ?_, hread⟩
      rw [spans, List.getElem?_cons_zero, hrest.head]
    | succ i => exact ih hrest hx

end Spanned

/-- **What instructions are to the code they were read from.** -/
structure Cut (code : Bytes) (ops : List (Nat × Operation Nat)) : Prop where
  ascending : (ops.map Prod.fst).Pairwise (· < ·)
  first : code ≠ [] → ops.head?.map Prod.fst = some 0
  covers : (spans code ops).flatten = code
  taken : ∀ i x, ops[i]? = some x →
    let stop := (ops[i + 1]?.map Prod.fst).getD code.length
    x.1 < stop ∧ stop ≤ code.length ∧
      (spans code ops)[i]? = some ((code.drop x.1).take (stop - x.1)) ∧
      Operation.read code.length ⟨x.1, code.drop x.1⟩ = .ok (x, ⟨stop, code.drop stop⟩)
  targets : ∀ x ∈ ops, ∀ t ∈ x.2.targets, t ∈ ops.map Prod.fst
  starts : ∀ o, requireStart (startOffsets ops) o = .ok () ↔ o ∈ ops.map Prod.fst

/-- **The code is cut into instructions.** Whatever the bytes are, the loop without a bound has one
outcome, and the instructions are that outcome if each target is the start of one of them. Then
their starts ascend from 0, the bytes from each start to the next are what the read of that
instruction takes, and all of them in a row are the code; each target is a start, and an offset
passes the check exactly if it is one. -/
theorem disassemble_cut (code : Bytes) :
    (∃ r, (∀ r', Scans code.length (.start code) r' ↔ r' = r) ∧
      disassemble code = r >>= requireTargets) ∧
    ∀ ops, disassemble code = .ok ops → Cut code ops := by
  refine ⟨scans_iff code, fun ops h => ?_⟩
  obtain ⟨hascending, -, htargets⟩ := disassemble_eq_ok h
  have hspanned := spanned_of_disassemble h
  refine ⟨hascending, fun hne => ?_, hspanned.flatten_spans, fun i x hx => hspanned.taken hx,
    htargets, fun o => ?_⟩
  · cases ops with
    | nil => exact absurd (List.length_eq_zero_iff.1 hspanned.symm) hne
    | cons x rest => rw [List.head?_cons, Option.map_some, hspanned.1]
  · rw [← hasStart_iff hascending, requireStart]
    cases hasStart (startOffsets ops) o <;> simp

/-- An increment behind a `wide` takes six bytes, and a jump goes back to it. To jump between them
is not possible. -/
theorem disassemble_cut_wide :
    let code : Bytes := [0xc4, 0x84, 0x00, 0x01, 0x01, 0x00, 0xa7, 0xff, 0xfa]
    let ops : List (Nat × Operation Nat) := [(0, .plain (.iinc 1 256)), (6, .branch (.goto 0))]
    disassemble code = .ok ops ∧ Cut code ops ∧
      spans code ops = [[0xc4, 0x84, 0x00, 0x01, 0x01, 0x00], [0xa7, 0xff, 0xfa]] ∧
      ∀ o, requireStart (startOffsets ops) o = .ok () ↔ o = 0 ∨ o = 6 := by
  intro code ops
  have hread : disassemble code = .ok ops := by decide +kernel
  have hcut := (disassemble_cut code).2 ops hread
  refine ⟨hread, hcut, rfl, fun o => (hcut.starts o).trans ?_⟩
  simp [ops]

end FreshLocal
