import Mathlib.Data.List.Nodup
import TickKernel.Proofs.Suspension

/-!
# Gates by slot

What making, opening and closing gates does to the slots that have one and to the
gates that are open.  As long as no slot has two gates, counting open gates is
counting slots.
-/

namespace TickKernel.Host

namespace Gates

variable {gates : Gates} {slot : ThreadId}

def slots (gates : Gates) : List ThreadId :=
  gates.map Gate.slot

theorem has_iff (gates : Gates) (slot : ThreadId) :
    gates.has slot = true ↔ slot ∈ gates.slots := by
  simp [has, slots]

theorem has_eq_false_iff (gates : Gates) (slot : ThreadId) :
    gates.has slot = false ↔ slot ∉ gates.slots := by
  rw [← gates.has_iff, Bool.not_eq_true]

@[simp]
theorem slots_make (gates : Gates) (slot : ThreadId) :
    (gates.make slot).slots = gates.slots ++ [slot] := by
  simp [slots, make]

@[simp]
theorem slots_setOpen (gates : Gates) (slot : ThreadId) (isOpen : Bool) :
    (gates.setOpen slot isOpen).slots = gates.slots := by
  unfold slots setOpen
  rw [List.map_map]
  apply List.map_congr_left
  intro gate _
  simp only [Function.comp_apply]
  split <;> rfl

theorem has_make (gates : Gates) (slot other : ThreadId) :
    (gates.make slot).has other = (gates.has other || slot == other) := by
  simp [has, make]

theorem has_ensure (gates : Gates) (slot other : ThreadId) :
    (gates.ensure slot).has other = (gates.has other || slot == other) := by
  unfold ensure
  split
  next hthere =>
      by_cases hslot : slot = other
      · simp [← hslot, hthere]
      · simp [hslot]
  next => exact gates.has_make slot other

@[simp]
theorem isOpen_make (gates : Gates) (slot other : ThreadId) :
    (gates.make slot).isOpen other = gates.isOpen other := by
  simp [isOpen, make]

@[simp]
theorem isOpen_ensure (gates : Gates) (slot other : ThreadId) :
    (gates.ensure slot).isOpen other = gates.isOpen other := by
  unfold ensure
  split
  · rfl
  · exact gates.isOpen_make slot other

theorem isOpen_setOpen_self (gates : Gates) (slot : ThreadId) (isOpen : Bool) :
    (gates.setOpen slot isOpen).isOpen slot = (gates.has slot && isOpen) := by
  induction gates with
  | nil => rfl
  | cons gate rest ih =>
      unfold setOpen Gates.isOpen has at ih ⊢
      simp only [List.map_cons, List.any_cons, ih]
      by_cases hslot : gate.slot = slot
      · cases isOpen <;> simp [hslot]
      · have hother : (gate.slot == slot) = false := by simp [hslot]
        simp [hslot, hother]

theorem isOpen_setOpen_of_ne (gates : Gates) {slot other : ThreadId} (isOpen : Bool)
    (hother : other ≠ slot) : (gates.setOpen slot isOpen).isOpen other = gates.isOpen other := by
  unfold setOpen Gates.isOpen
  rw [List.any_map]
  congr 1
  funext gate
  simp only [Function.comp_apply]
  split
  next hslot =>
      have hne : (slot == other) = false := by simp [hother.symm]
      simp [hslot, hne]
  next => rfl

theorem has_of_isOpen (h : gates.isOpen slot = true) : gates.has slot = true := by
  simp only [isOpen, List.any_eq_true, Bool.and_eq_true] at h
  obtain ⟨gate, hmem, hslot, -⟩ := h
  exact List.any_eq_true.2 ⟨gate, hmem, hslot⟩

theorem nodup_make (h : gates.slots.Nodup) (hmissing : gates.has slot = false) :
    (gates.make slot).slots.Nodup := by
  rw [slots_make]
  apply List.nodup_append.2
  refine ⟨h, List.nodup_singleton slot, ?_⟩
  intro other hmem last hlast heq
  apply (gates.has_eq_false_iff slot).1 hmissing
  rw [← List.mem_singleton.1 hlast, ← heq]
  exact hmem

theorem nodup_ensure (h : gates.slots.Nodup) (slot : ThreadId) :
    (gates.ensure slot).slots.Nodup := by
  unfold ensure
  split
  next => exact h
  next hmissing => exact nodup_make h (Bool.not_eq_true _ ▸ hmissing)

theorem ensure_of_has (h : gates.has slot = true) : gates.ensure slot = gates :=
  if_pos h

theorem ensure_of_not_has (h : gates.has slot = false) : gates.ensure slot = gates.make slot :=
  if_neg (by simp [h])

theorem switch_eq (gates : Gates) (next prev : ThreadId) :
    gates.switch next prev = ((gates.ensure prev).has next,
      (((gates.ensure prev).ensure next).setOpen next true).setOpen next false) := by
  have hopen : (((gates.ensure prev).ensure next).setOpen next true).isOpen next = true := by
    rw [isOpen_setOpen_self, has_ensure_self]
    rfl
  simp [switch, pass?, hopen]

theorem has_switch (gates : Gates) (next prev id : ThreadId) :
    (gates.switch next prev).2.has id = (gates.has id || prev == id || next == id) := by
  rw [switch_eq, has_setOpen, has_setOpen, has_ensure, has_ensure]

theorem openCount_eq_zero (h : ∀ slot, gates.isOpen slot = false) : gates.openCount = 0 := by
  apply List.countP_eq_zero.2
  intro gate hmem hopen
  have hclosed := h gate.slot
  simp only [isOpen, List.any_eq_false] at hclosed
  apply hclosed gate hmem
  simp [hopen]

/-- As no slot has two gates, one slot with an open gate is one open gate. -/
theorem openCount_eq_one (hnodup : gates.slots.Nodup) (hopen : gates.isOpen slot = true)
    (hothers : ∀ other, other ≠ slot → gates.isOpen other = false) : gates.openCount = 1 := by
  induction gates with
  | nil => cases hopen
  | cons gate rest ih =>
      have hsplit : ∀ other : ThreadId, isOpen (gate :: rest) other =
          (gate.slot == other && gate.isOpen || isOpen rest other) := fun _ => rfl
      have hcount : openCount (gate :: rest) =
          openCount rest + if gate.isOpen then 1 else 0 := List.countP_cons
      obtain ⟨hnew, hrest⟩ := List.nodup_cons.1 hnodup
      cases hgate : gate.isOpen with
      | true =>
          have hslot : gate.slot = slot := by
            by_contra hne
            have hclosed := hothers gate.slot hne
            rw [hsplit, hgate] at hclosed
            simp at hclosed
          have hnone : ∀ other, isOpen rest other = false := by
            intro other
            by_cases hother : other = slot
            · rw [← Bool.not_eq_true]
              intro hagain
              apply hnew
              rw [hslot, ← hother]
              exact (has_iff rest other).1 (has_of_isOpen hagain)
            · have hclosed := hothers other hother
              rw [hsplit, Bool.or_eq_false_iff] at hclosed
              exact hclosed.2
          rw [hcount, openCount_eq_zero hnone, hgate]
          rfl
      | false =>
          rw [hcount, hgate]
          apply ih hrest
          · simpa [hsplit, hgate] using hopen
          · intro other hother
            simpa [hsplit, hgate] using hothers other hother

end Gates

end TickKernel.Host
