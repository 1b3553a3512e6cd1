import Mathlib.Data.List.Forall2
import TickKernel.Proofs.RingList

/-!
# Rings beside bounded lists

Several buffers are used one after the other, and copied at will.  Used in the same way, rings
and bounded lists answer the same, and every ring shows the elements of the list in its place.
The operations of a ring stay within its slots: where an index out of range and a remainder by
zero would be faults, they go through all the same.
-/

namespace TickKernel

/-! ## Buffers -/

/-- A bounded buffer, by what its operations answer and leave of a state. -/
structure Buffer (α σ : Type) where
  put : σ → α → Option α × σ
  get : σ → Option α × σ
  contains : σ → α → Bool
  reset : σ → σ

namespace Buffer

inductive Use (α : Type) where
  | put (value : α)
  | get
  | contains (value : α)
  | reset
  /-- Make a copy of the buffer, which is from then on a buffer of its own. -/
  | copy

inductive Reply (α : Type) where
  | element (value : Option α)
  | flag (value : Bool)
  | done
  /-- There is no such buffer. -/
  | absent

variable {α σ τ : Type}

def use (kind : Buffer α σ) (states : List σ) (index : Nat) (operation : Use α) :
    Reply α × List σ :=
  match states[index]? with
  | none => (.absent, states)
  | some state =>
      match operation with
      | .put value => (.element (kind.put state value).1, states.set index (kind.put state value).2)
      | .get => (.element (kind.get state).1, states.set index (kind.get state).2)
      | .contains value => (.flag (kind.contains state value), states)
      | .reset => (.done, states.set index (kind.reset state))
      | .copy => (.done, states ++ [state])

/-- The answers to uses one after the other, and the buffers in the end. -/
def play (kind : Buffer α σ) (states : List σ) : List (Nat × Use α) → List (Reply α) × List σ
  | [] => ([], states)
  | (index, operation) :: rest =>
      let (reply, after) := kind.use states index operation
      let (replies, last) := kind.play after rest
      (reply :: replies, last)

/-- Buffers of two kinds that answer the same as long as their states are related. -/
structure Simulates (first : Buffer α σ) (second : Buffer α τ) (Related : σ → τ → Prop) :
    Prop where
  put : ∀ {s t}, Related s t → ∀ value, (first.put s value).1 = (second.put t value).1 ∧
    Related (first.put s value).2 (second.put t value).2
  get : ∀ {s t}, Related s t → (first.get s).1 = (second.get t).1 ∧
    Related (first.get s).2 (second.get t).2
  contains : ∀ {s t}, Related s t → ∀ value, first.contains s value = second.contains t value
  reset : ∀ {s t}, Related s t → Related (first.reset s) (second.reset t)

section

variable {Related : σ → τ → Prop} {states : List σ} {others : List τ}

theorem getElem?_cases (h : List.Forall₂ Related states others) (index : Nat) :
    (states[index]? = none ∧ others[index]? = none) ∨
      ∃ s t, states[index]? = some s ∧ others[index]? = some t ∧ Related s t := by
  induction h generalizing index with
  | nil => exact .inl ⟨rfl, rfl⟩
  | @cons s t states others hhead _ ih =>
      cases index with
      | zero => exact .inr ⟨s, t, rfl, rfl, hhead⟩
      | succ index => simpa using ih index

theorem forall₂_set (h : List.Forall₂ Related states others) {s : σ} {t : τ} (hst : Related s t)
    (index : Nat) : List.Forall₂ Related (states.set index s) (others.set index t) := by
  induction h generalizing index with
  | nil => exact .nil
  | cons hhead htail ih =>
      cases index with
      | zero => exact .cons hst htail
      | succ index => exact .cons hhead (ih index)

variable {first : Buffer α σ} {second : Buffer α τ}

theorem Simulates.use (h : first.Simulates second Related)
    (hstates : List.Forall₂ Related states others) (index : Nat) (operation : Use α) :
    (first.use states index operation).1 = (second.use others index operation).1 ∧
      List.Forall₂ Related (first.use states index operation).2
        (second.use others index operation).2 := by
  rcases getElem?_cases hstates index with ⟨hnone, hnone'⟩ | ⟨s, t, hs, ht, hst⟩
  · simp only [Buffer.use, hnone, hnone']
    exact ⟨trivial, hstates⟩
  · simp only [Buffer.use, hs, ht]
    cases operation with
    | put value =>
        obtain ⟨hreply, hafter⟩ := h.put hst value
        exact ⟨congrArg Reply.element hreply, forall₂_set hstates hafter index⟩
    | get =>
        obtain ⟨hreply, hafter⟩ := h.get hst
        exact ⟨congrArg Reply.element hreply, forall₂_set hstates hafter index⟩
    | contains value => exact ⟨congrArg Reply.flag (h.contains hst value), hstates⟩
    | reset => exact ⟨rfl, forall₂_set hstates (h.reset hst) index⟩
    | copy => exact ⟨rfl, List.rel_append hstates (.cons hst .nil)⟩

theorem Simulates.play (h : first.Simulates second Related)
    (hstates : List.Forall₂ Related states others) (uses : List (Nat × Use α)) :
    (first.play states uses).1 = (second.play others uses).1 ∧
      List.Forall₂ Related (first.play states uses).2 (second.play others uses).2 := by
  induction uses generalizing states others with
  | nil => exact ⟨rfl, hstates⟩
  | cons head rest ih =>
      obtain ⟨index, operation⟩ := head
      obtain ⟨hreply, hafter⟩ := h.use hstates index operation
      obtain ⟨hreplies, hlast⟩ := ih hafter
      exact ⟨congrArg₂ List.cons hreply hreplies, hlast⟩

end

end Buffer

/-- A list of at most `n` elements, oldest first.  A full one gives up its oldest element. -/
def boundedList (α : Type) [BEq α] (n : Nat) : Buffer α (List α) where
  put items value :=
    if n = 0 then (some value, items)
    else if items.length < n then (none, items ++ [value])
    else (items.head?, items.tail ++ [value])
  get items := (items.head?, items.tail)
  contains items value := items.any (· == value)
  reset _ := []

namespace Ring

variable {α : Type} {n : Nat} {ring : Ring α n} {items : List α}

def buffer (α : Type) [BEq α] (n : Nat) : Buffer α (Ring α n) where
  put := put
  get := get
  contains := contains
  reset := reset

/-! ## Operations that may fault -/

/-- The slot after `index`, where a remainder by zero is a fault. -/
def next? (n index : Nat) : Option Nat :=
  if n = 0 then none else some (next n index)

def write? (ring : Ring α n) (index : Nat) (value : Option α) : Option (Ring α n) :=
  if index < n then some { ring with slots := ring.slots.setIfInBounds index value } else none

/-- Take the oldest element out of its slot, with what the slot held. -/
def dropOldest? (ring : Ring α n) : Option (Option α × Ring α n) := do
  let oldest ← ring.slots[ring.tail]?
  let vacated ← ring.write? ring.tail none
  let tail ← next? n ring.tail
  return (oldest, { vacated with tail := tail })

/-- Append an element, where an index out of range is a fault. -/
def put? (ring : Ring α n) (value : α) : Option (Option α × Ring α n) :=
  if n = 0 then some (some value, ring)
  else do
    let (evicted, room) ← if ring.isFull then ring.dropOldest? else some (none, ring)
    let filled ← room.write? room.head (some value)
    let head ← next? n room.head
    return (evicted, { filled with head := head, isEmpty := false })

def get? (ring : Ring α n) : Option (Option α × Ring α n) :=
  if ring.isEmpty then some (none, ring)
  else do
    let (oldest, rest) ← ring.dropOldest?
    return (oldest, { rest with isEmpty := rest.tail == rest.head })

def size? (ring : Ring α n) : Option Nat :=
  if ring.isEmpty then some 0
  else if ring.tail < ring.head then some (ring.head - ring.tail)
  else if ring.tail ≤ n then some (n - ring.tail + ring.head)
  else none

def toList? (ring : Ring α n) : Option (List α) := do
  let count ← ring.size?
  let window ← (List.range count).mapM fun offset =>
    if n = 0 then none else ring.slots[(ring.tail + offset) % n]?
  return window.filterMap id

theorem mapM_eq_some {β γ : Type} {f : β → Option γ} {g : β → γ} {places : List β}
    (h : ∀ place ∈ places, f place = some (g place)) : places.mapM f = some (places.map g) := by
  induction places with
  | nil => rfl
  | cons place places ih =>
      rw [List.forall_mem_cons] at h
      simp [List.mapM_cons, h.1, ih h.2]

theorem getElem?_slots {index : Nat} (h : index < n) :
    ring.slots[index]? = some (ring.slot index) := by
  simp [slot, h]

/-! ## What a ring shows of its list -/

/-- A ring shows these elements in all that can be asked of it, and nothing faults. -/
structure Shows [BEq α] (ring : Ring α n) (items : List α) : Prop where
  length_le : items.length ≤ n
  size_eq : ring.size = items.length
  isEmpty_eq : ring.isEmpty = items.isEmpty
  toList_eq : ring.toList = items
  isFull_iff : ring.isFull = true ↔ 0 < n ∧ items.length = n
  contains_iff : ∀ value, ring.contains value = true ↔ ∃ item ∈ items, (item == value) = true
  tail_lt : ring.tail < max n 1
  head_lt : ring.head < max n 1
  /-- Exactly the slots from `tail` on, as many as there are elements, are occupied. -/
  occupied_iff : ∀ index < n, (ring.slot index).isSome = true ↔
    ∃ offset < items.length, index = (ring.tail + offset) % n
  put_eq : ∀ value, ring.put? value = some (ring.put value)
  get_eq : ring.get? = some ring.get
  size?_eq : ring.size? = some ring.size
  toList?_eq : ring.toList? = some ring.toList

namespace Holds

theorem pos_of_not_isEmpty (h : ring.Holds items) (hfilled : ring.isEmpty = false) : 0 < n := by
  have hle := h.length_le
  rw [h.isEmpty_eq, List.isEmpty_eq_false_iff, ← List.length_pos_iff] at hfilled
  omega

theorem head_lt (h : ring.Holds items) : ring.head < max n 1 := by
  rw [h.head_eq]
  rcases Nat.eq_zero_or_pos n with rfl | hpos
  · have hle := h.length_le
    have htail := h.tail_lt
    rw [Nat.mod_zero]
    omega
  · have := Nat.mod_lt (ring.tail + items.length) hpos
    omega

theorem exists_offset (h : ring.Holds items) {index : Nat} (hindex : index < n) :
    ∃ offset < n, index = (ring.tail + offset) % n := by
  have htail := h.tail_lt_of_pos (by omega)
  by_cases hbelow : ring.tail ≤ index
  · refine ⟨index - ring.tail, by omega, ?_⟩
    rw [Nat.add_sub_cancel' hbelow, Nat.mod_eq_of_lt hindex]
  · refine ⟨n - ring.tail + index, by omega, ?_⟩
    rw [show ring.tail + (n - ring.tail + index) = index + n by omega, Nat.add_mod_right,
      Nat.mod_eq_of_lt hindex]

theorem occupied_iff (h : ring.Holds items) {index : Nat} (hindex : index < n) :
    (ring.slot index).isSome = true ↔
      ∃ offset < items.length, index = (ring.tail + offset) % n := by
  have hle := h.length_le
  constructor
  · intro hoccupied
    obtain ⟨offset, hoffset, rfl⟩ := h.exists_offset hindex
    rw [h.slot_eq offset hoffset] at hoccupied
    exact ⟨offset, by simpa using hoccupied, rfl⟩
  · rintro ⟨offset, hoffset, rfl⟩
    rw [h.slot_eq offset (by omega)]
    simpa using hoffset

/-! ### Putting into a full ring -/

/-- A full ring first gets rid of its oldest element. -/
theorem put_of_full (h : ring.Holds items) (hpos : 0 < n) (hfull : items.length = n) (value : α) :
    ring.put value = (ring.get.1, (ring.get.2.put value).2) := by
  have hisFull := (h.isFull_iff hpos).2 hfull
  have hfilled : ring.isEmpty = false := by
    rw [h.isEmpty_eq, List.isEmpty_eq_false_iff, ← List.length_pos_iff]
    omega
  have hroom : ring.get.2.isFull = false := by
    rw [Bool.eq_false_iff, Ne, h.get.2.isFull_iff hpos, List.length_tail]
    omega
  simp only [Ring.put, if_neg (Nat.ne_of_gt hpos), hisFull, hroom, if_true, Bool.false_eq_true,
    if_false]
  simp [Ring.get, hfilled, dropOldest]

theorem put_boundedList [BEq α] (h : ring.Holds items) (value : α) :
    (ring.put value).1 = ((boundedList α n).put items value).1 ∧
      (ring.put value).2.Holds ((boundedList α n).put items value).2 := by
  simp only [boundedList]
  split
  next hzero => simpa [Ring.put, hzero] using h
  next hpos =>
      split
      next hroom => exact h.put hroom value
      next hfull =>
          have hle := h.length_le
          have hlength : items.length = n := by omega
          have hrest : items.tail.length < n := by
            rw [List.length_tail]
            omega
          rw [h.put_of_full (by omega) hlength value]
          exact ⟨h.get.1, (h.get.2.put hrest value).2⟩

/-! ### No faults -/

theorem dropOldest?_eq (h : ring.Holds items) (hpos : 0 < n) :
    ring.dropOldest? = some (ring.slot ring.tail, ring.dropOldest) := by
  have htail := h.tail_lt_of_pos hpos
  simp only [dropOldest?, getElem?_slots htail, write?, next?, if_pos htail,
    if_neg (Nat.ne_of_gt hpos)]
  rfl

theorem put?_eq (h : ring.Holds items) (value : α) : ring.put? value = some (ring.put value) := by
  rcases Nat.eq_zero_or_pos n with rfl | hpos
  · rfl
  · have hhead : ring.head < n := by
      have := h.head_lt
      omega
    have hroom : ring.dropOldest.head = ring.head := rfl
    cases hfull : ring.isFull <;>
      simp [put?, Ring.put, hfull, h.dropOldest?_eq hpos, write?, next?, hhead, hroom,
        Nat.ne_of_gt hpos]

theorem get?_eq (h : ring.Holds items) : ring.get? = some ring.get := by
  cases hempty : ring.isEmpty with
  | true => simp [get?, Ring.get, hempty]
  | false =>
      have hpos := h.pos_of_not_isEmpty hempty
      simp [get?, Ring.get, hempty, h.dropOldest?_eq hpos]

theorem size?_eq (h : ring.Holds items) : ring.size? = some ring.size := by
  cases hempty : ring.isEmpty with
  | true => simp [size?, size, hempty]
  | false =>
      have htail := h.tail_lt_of_pos (h.pos_of_not_isEmpty hempty)
      simp only [size?, size, hempty, Bool.false_eq_true, if_false, Nat.le_of_lt htail, if_true]
      split <;> rfl

theorem toList?_eq (h : ring.Holds items) : ring.toList? = some ring.toList := by
  have hwindow : ∀ offset ∈ List.range ring.size,
      (if n = 0 then none else ring.slots[(ring.tail + offset) % n]?) =
        some (ring.slot ((ring.tail + offset) % n)) := by
    intro offset hmem
    have hoffset := List.mem_range.1 hmem
    have hle := h.length_le
    rw [h.size_eq] at hoffset
    have hpos : 0 < n := by omega
    rw [if_neg (Nat.ne_of_gt hpos), getElem?_slots (Nat.mod_lt _ hpos)]
  simp [toList?, h.size?_eq, mapM_eq_some hwindow, toList, List.filterMap_map]

theorem shows [BEq α] (h : ring.Holds items) : ring.Shows items where
  length_le := h.length_le
  size_eq := h.size_eq
  isEmpty_eq := h.isEmpty_eq
  toList_eq := h.toList_eq
  isFull_iff := by
    rcases Nat.eq_zero_or_pos n with rfl | hpos
    · have hle := h.length_le
      have hnil : items.isEmpty = true := List.isEmpty_iff_length_eq_zero.2 (by omega)
      simp [isFull, h.isEmpty_eq, hnil]
    · rw [h.isFull_iff hpos]
      exact ⟨fun hfull => ⟨hpos, hfull⟩, And.right⟩
  contains_iff value := by
    rw [Ring.contains, h.toList_eq, List.any_eq_true]
  tail_lt := h.tail_lt
  head_lt := h.head_lt
  occupied_iff _ hindex := h.occupied_iff hindex
  put_eq := h.put?_eq
  get_eq := h.get?_eq
  size?_eq := h.size?_eq
  toList?_eq := h.toList?_eq

end Holds

theorem simulates_boundedList (α : Type) [BEq α] (n : Nat) :
    (buffer α n).Simulates (boundedList α n) Holds where
  put h value := h.put_boundedList value
  get h := h.get
  contains h value := by
    simp only [buffer, boundedList, Ring.contains, h.toList_eq]
  reset _ := holds_empty

/--
Rings that begin with an empty one, are used in any way and copied at any time, answer as
bounded lists that begin with an empty one: a list takes an element at its end, gives up the
oldest one for it if it is full, and gives the oldest one when asked.  Every ring shows all the
elements of its list, whatever is asked of it, and none of its operations would go beyond its
slots.
-/
theorem refines_boundedList (α : Type) [BEq α] (n : Nat) (uses : List (Nat × Buffer.Use α)) :
    ((buffer α n).play [empty] uses).1 = ((boundedList α n).play [[]] uses).1 ∧
      List.Forall₂ Shows ((buffer α n).play [empty] uses).2
        ((boundedList α n).play [[]] uses).2 := by
  obtain ⟨hreplies, hlast⟩ :=
    (simulates_boundedList α n).play (.cons holds_empty .nil) uses
  exact ⟨hreplies, hlast.imp fun _ _ h => h.shows⟩

end Ring

end TickKernel
