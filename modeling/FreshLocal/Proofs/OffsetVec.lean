import FreshLocal.OffsetVec
import Mathlib.Tactic.ByContra

/-!
# What a binary search finds

In elements whose keys ascend, at most one has a given key. The search halves the
range in which it can be, so it finds this element, and finds nothing if there is
none.

* `searchBy_eq_some`: **what is found is in the range and has the key**.
* `OffsetVec.get?_eq_some`: an element is found at its offset.
-/

namespace FreshLocal

variable {α : Type} {x : α}

/-- **Binary search** finds the element with a key between two indices exactly if there is one,
since the keys ascend. -/
theorem searchBy_eq_some {key : α → Nat} {xs : Array α} {wanted : Nat}
    (hxs : (xs.toList.map key).Pairwise (· < ·)) {low high : Nat} (h : high ≤ xs.size) :
    searchBy key xs wanted low high h = some x ↔
      ∃ i, low ≤ i ∧ i < high ∧ xs[i]? = some x ∧ key x = wanted := by
  have hlt : ∀ i j, (hi : i < xs.size) → (hj : j < xs.size) → i < j → key xs[i] < key xs[j] := by
    intro i j hi hj hij
    exact List.pairwise_iff_getElem.1 (List.pairwise_map.1 hxs) i j hi hj hij
  fun_induction searchBy key xs wanted low high h with
  | case1 low high h hlow middle hfound =>
    have hmiddle : middle < xs.size := by omega
    constructor
    · intro hx
      obtain rfl := Option.some.inj hx
      exact ⟨middle, by omega, by omega, Array.getElem?_eq_getElem hmiddle, hfound⟩
    · rintro ⟨i, hi, hi', hix, hkey⟩
      obtain ⟨hsize, rfl⟩ := Array.getElem?_eq_some_iff.1 hix
      -- another element with the key would be before or behind the middle
      obtain hbefore | rfl | hbehind := Nat.lt_trichotomy i middle
      · have := hlt i middle hsize hmiddle hbefore
        omega
      · rfl
      · have := hlt middle i hmiddle hsize hbehind
        omega
  | case2 low high h hlow middle hne hless ih =>
    -- what is found stands behind the middle
    refine ih.trans ⟨fun ⟨i, hi, hi', hix⟩ => ⟨i, by omega, hi', hix⟩, ?_⟩
    rintro ⟨i, hi, hi', hix, hkey⟩
    refine ⟨i, ?_, hi', hix, hkey⟩
    obtain ⟨hsize, rfl⟩ := Array.getElem?_eq_some_iff.1 hix
    by_contra hle
    obtain rfl | hbefore := Nat.eq_or_lt_of_le (Nat.le_of_not_lt hle)
    · exact hne hkey
    · have := hlt i middle hsize (by omega) hbefore
      omega
  | case3 low high h hlow middle hne hmore ih =>
    -- what is found stands before the middle
    refine ih.trans ⟨fun ⟨i, hi, hi', hix⟩ => ⟨i, hi, by omega, hix⟩, ?_⟩
    rintro ⟨i, hi, hi', hix, hkey⟩
    refine ⟨i, hi, ?_, hix, hkey⟩
    obtain ⟨hsize, rfl⟩ := Array.getElem?_eq_some_iff.1 hix
    by_contra hge
    obtain rfl | hbehind := Nat.eq_or_lt_of_le (Nat.le_of_not_lt hge)
    · exact hne hkey
    · have := hlt middle i (by omega) hsize hbehind
      omega
  | case4 low high h hlow =>
    exact ⟨nofun, fun ⟨i, hi, hi', _⟩ => absurd (Nat.lt_of_le_of_lt hi hi') hlow⟩

/-- **An element is found at its offset**, and nowhere else. -/
theorem OffsetVec.get?_eq_some {v : OffsetVec α} {offset : Nat}
    (hv : (v.entries.toList.map Prod.fst).Pairwise (· < ·)) :
    v.get? offset = some x ↔ (offset, x) ∈ v.entries.toList := by
  rw [get?, Option.map_eq_some_iff, List.mem_iff_getElem?]
  constructor
  · rintro ⟨⟨o, y⟩, hfound, rfl⟩
    obtain ⟨i, -, -, hi, rfl⟩ := (searchBy_eq_some hv _).1 hfound
    exact ⟨i, by rw [Array.getElem?_toList]; exact hi⟩
  · rintro ⟨i, hi⟩
    rw [Array.getElem?_toList] at hi
    obtain ⟨hsize, -⟩ := Array.getElem?_eq_some_iff.1 hi
    exact ⟨(offset, x), (searchBy_eq_some hv _).2 ⟨i, Nat.zero_le i, hsize, hi, rfl⟩, rfl⟩

end FreshLocal
