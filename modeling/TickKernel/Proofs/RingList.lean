import Mathlib.Data.List.Basic
import Mathlib.Data.Nat.ModEq
import TickKernel.Ring

/-!
# A ring is a bounded list

`Ring.Holds` ties a ring to the list of its elements, oldest first.  Putting into a
ring with room appends to that list and getting takes its head off, so the ring's
own view `Ring.toList` is that list in every ring that was built from an empty one.
-/

namespace TickKernel.Ring

variable {α : Type} {n : Nat} {ring : Ring α n} {items : List α}

/--
The ring holds these items, oldest first: they occupy the slots from `tail` on,
going round, and every other slot is vacant.
-/
structure Holds (ring : Ring α n) (items : List α) : Prop where
  length_le : items.length ≤ n
  tail_lt : ring.tail < max n 1
  head_eq : ring.head = (ring.tail + items.length) % n
  isEmpty_eq : ring.isEmpty = items.isEmpty
  slot_eq : ∀ offset < n, ring.slot ((ring.tail + offset) % n) = items[offset]?

/-- Places less than one round apart are different slots. -/
theorem offset_inj {start a b : Nat} (ha : a < n) (hb : b < n)
    (h : (start + a) % n = (start + b) % n) : a = b := by
  have hmod : a ≡ b [MOD n] := Nat.ModEq.add_left_cancel' start h
  exact Nat.ModEq.eq_of_lt_of_lt hmod ha hb

theorem slot_of_set {after : Ring α n} {index : Nat} {value : Option α}
    (h : after.slots = ring.slots.setIfInBounds index value) (other : Nat) :
    after.slot other = if index = other ∧ other < n then value else ring.slot other := by
  by_cases hother : other < n
  · by_cases hindex : index = other
    · subst hindex
      simp [slot, h, hother]
    · simp [slot, h, hindex, Vector.getElem?_setIfInBounds_ne hindex]
  · simp [slot, h, hother]

theorem filterMap_getElem? (items : List α) :
    (List.range items.length).filterMap (fun offset => items[offset]?) = items := by
  induction items with
  | nil => rfl
  | cons first rest ih =>
      rw [List.length_cons, List.range_succ_eq_map]
      simp [List.filterMap_map, ih]

theorem holds_empty : (empty : Ring α n).Holds [] where
  length_le := Nat.zero_le _
  tail_lt := by simp [empty]
  head_eq := by simp [empty]
  isEmpty_eq := rfl
  slot_eq offset h := by
    have hpos : 0 < n := by omega
    simp [empty, slot, Nat.mod_lt _ hpos]

namespace Holds

theorem tail_lt_of_pos (h : ring.Holds items) (hpos : 0 < n) : ring.tail < n := by
  have := h.tail_lt
  omega

theorem size_eq (h : ring.Holds items) : ring.size = items.length := by
  unfold size
  rw [h.isEmpty_eq]
  cases items with
  | nil => rfl
  | cons first rest =>
      have hle := h.length_le
      have hpos : 0 < n := by simp only [List.length_cons] at hle; omega
      have htail := h.tail_lt_of_pos hpos
      have hhead := h.head_eq
      simp only [List.length_cons] at hle hhead ⊢
      simp only [List.isEmpty_cons, Bool.false_eq_true, if_false]
      by_cases hwrap : ring.tail + (rest.length + 1) < n
      · rw [Nat.mod_eq_of_lt hwrap] at hhead
        rw [if_pos (by omega)]
        omega
      · have hround : (ring.tail + (rest.length + 1)) % n = ring.tail + (rest.length + 1) - n := by
          rw [Nat.mod_eq_sub_mod (by omega), Nat.mod_eq_of_lt (by omega)]
        rw [hround] at hhead
        rw [if_neg (by omega)]
        omega

theorem toList_eq (h : ring.Holds items) : ring.toList = items := by
  have hle := h.length_le
  have hslot : ∀ offset ∈ List.range items.length,
      ring.slot ((ring.tail + offset) % n) = items[offset]? := by
    intro offset hmem
    rw [List.mem_range] at hmem
    exact h.slot_eq offset (by omega)
  unfold toList
  rw [h.size_eq, List.filterMap_congr hslot]
  exact filterMap_getElem? items

theorem isFull_iff (h : ring.Holds items) (hpos : 0 < n) :
    ring.isFull = true ↔ items.length = n := by
  have hle := h.length_le
  have htail := h.tail_lt_of_pos hpos
  have hhead := h.head_eq
  simp only [isFull, h.isEmpty_eq, Bool.and_eq_true, Bool.not_eq_true', List.isEmpty_eq_false_iff,
    beq_iff_eq, ← List.length_pos_iff]
  by_cases hwrap : ring.tail + items.length < n
  · rw [Nat.mod_eq_of_lt hwrap] at hhead
    omega
  · rw [Nat.mod_eq_sub_mod (by omega), Nat.mod_eq_of_lt (by omega)] at hhead
    omega

/-- Putting into a ring with room appends and gives nothing up. -/
theorem put (h : ring.Holds items) (room : items.length < n) (value : α) :
    (ring.put value).1 = none ∧ (ring.put value).2.Holds (items ++ [value]) := by
  have hpos : 0 < n := by omega
  have hfull : ring.isFull = false := by
    rw [Bool.eq_false_iff, Ne, h.isFull_iff hpos]
    omega
  simp only [Ring.put, if_neg (Nat.ne_of_gt hpos), hfull, Bool.false_eq_true, if_false]
  refine ⟨trivial, ?_⟩
  have hnext : next n ring.head = (ring.tail + (items.length + 1)) % n := by
    rw [next, h.head_eq, Nat.mod_add_mod, Nat.add_assoc]
  constructor
  · rw [List.length_append, List.length_singleton]
    omega
  · exact h.tail_lt
  · simpa using hnext
  · simp
  · intro offset hlt
    rw [slot_of_set rfl, h.head_eq, h.slot_eq offset hlt]
    by_cases hnew : offset = items.length
    · subst hnew
      simp [Nat.mod_lt _ hpos]
    · have hne : (ring.tail + items.length) % n ≠ (ring.tail + offset) % n := by
        intro heq
        exact hnew (offset_inj room hlt heq).symm
      rw [if_neg (fun both => hne both.1)]
      by_cases hold : offset < items.length
      · rw [List.getElem?_append_left hold]
      · rw [List.getElem?_eq_none (by omega), List.getElem?_eq_none (by simp; omega)]

theorem get (h : ring.Holds items) :
    ring.get.1 = items.head? ∧ ring.get.2.Holds items.tail := by
  unfold Ring.get
  rw [h.isEmpty_eq]
  cases items with
  | nil => exact ⟨rfl, h⟩
  | cons first rest =>
      have hle := h.length_le
      rw [List.length_cons] at hle
      have hpos : 0 < n := by omega
      have htail := h.tail_lt_of_pos hpos
      have hfirst : ring.slot ring.tail = some first := by
        have := h.slot_eq 0 hpos
        rwa [Nat.add_zero, Nat.mod_eq_of_lt htail] at this
      have hhead : ring.head = (next n ring.tail + rest.length) % n := by
        rw [h.head_eq, next, Nat.mod_add_mod, List.length_cons]
        congr 1
        omega
      simp only [List.isEmpty_cons, Bool.false_eq_true, if_false, List.head?_cons, List.tail_cons]
      refine ⟨hfirst, ?_⟩
      constructor
      · omega
      · have := Nat.mod_lt (ring.tail + 1) hpos
        simp only [dropOldest, next]
        omega
      · exact hhead
      · change (next n ring.tail == ring.head) = rest.isEmpty
        rw [Bool.eq_iff_iff, beq_iff_eq, List.isEmpty_iff_length_eq_zero, hhead]
        have hmod : next n ring.tail = (next n ring.tail + 0) % n := by
          rw [Nat.add_zero, next, Nat.mod_mod]
        constructor
        · intro heq
          exact (offset_inj hpos (by omega) (hmod.symm.trans heq)).symm
        · intro hzero
          rw [hzero, ← hmod]
      · intro offset hlt
        have hplace : (next n ring.tail + offset) % n = (ring.tail + (offset + 1)) % n := by
          rw [next, Nat.mod_add_mod, Nat.add_assoc, Nat.add_comm 1]
        change Ring.slot _ ((next n ring.tail + offset) % n) = _
        rw [slot_of_set rfl, hplace]
        by_cases hlast : offset + 1 < n
        · have hne : ring.tail ≠ (ring.tail + (offset + 1)) % n := by
            intro heq
            have hzero : (ring.tail + 0) % n = (ring.tail + (offset + 1)) % n := by
              rwa [Nat.add_zero, Nat.mod_eq_of_lt htail]
            have := offset_inj hpos hlast hzero
            omega
          rw [if_neg (fun both => hne both.1), h.slot_eq _ hlast, List.getElem?_cons_succ]
        · have hround : (ring.tail + (offset + 1)) % n = ring.tail := by
            rw [show offset + 1 = n by omega, Nat.add_mod_right, Nat.mod_eq_of_lt htail]
          rw [hround, if_pos ⟨rfl, htail⟩, List.getElem?_eq_none (by omega)]

end Holds

end TickKernel.Ring
