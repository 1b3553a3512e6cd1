import TickKernel.Policy

/-!
# When round robin falls back to the idle thread

Only when no created thread is ready, and when the current one does not go on.
-/

namespace TickKernel

namespace ThreadTable

variable {table : ThreadTable} {id : ThreadId}

theorem mem_createdIds : id ∈ table.createdIds ↔ id.val < table.count := by
  rw [createdIds, List.mem_take_iff_getElem]
  constructor
  · rintro ⟨position, hposition, rfl⟩
    simp only [ThreadId.all, List.getElem_finRange]
    exact Nat.lt_of_lt_of_le hposition (Nat.min_le_left _ _)
  · intro hlt
    have hlength : ThreadId.all.length = maxThreads := List.length_finRange
    refine ⟨id.val, by omega, ?_⟩
    simp [ThreadId.all]

theorem getElem_createdIds {table : ThreadTable} {index : Nat}
    (h : index < table.createdIds.length) : (table.createdIds[index]).val = index := by
  simp [createdIds, ThreadId.all]

theorem mem_drop_createdIds {first : Nat} :
    id ∈ table.createdIds.drop first ↔ id ∈ table.createdIds ∧ first ≤ id.val := by
  rw [List.mem_drop_iff_getElem, List.mem_iff_getElem]
  constructor
  · rintro ⟨index, hindex, rfl⟩
    exact ⟨⟨first + index, by omega, rfl⟩, by rw [getElem_createdIds]; omega⟩
  · rintro ⟨⟨index, hindex, rfl⟩, hfirst⟩
    rw [getElem_createdIds] at hfirst
    refine ⟨index - first, by omega, ?_⟩
    congr 1
    omega

theorem mem_take_createdIds {count : Nat} :
    id ∈ table.createdIds.take count ↔ id ∈ table.createdIds ∧ id.val < count := by
  rw [List.mem_take_iff_getElem, List.mem_iff_getElem]
  constructor
  · rintro ⟨index, hindex, rfl⟩
    exact ⟨⟨index, by omega, rfl⟩, by rw [getElem_createdIds]; omega⟩
  · rintro ⟨⟨index, hindex, rfl⟩, hcount⟩
    rw [getElem_createdIds] at hcount
    exact ⟨index, by omega, rfl⟩

theorem idle_not_mem_createdIds (table : ThreadTable) : ThreadId.idle ∉ table.createdIds := by
  rw [mem_createdIds]
  exact Nat.not_lt.2 table.count_le

theorem mem_createdIds_of_contains (hcontains : table.contains id = true)
    (hid : id ≠ ThreadId.idle) : id ∈ table.createdIds := by
  simp only [contains, Bool.or_eq_true, beq_iff_eq, decide_eq_true_eq] at hcontains
  exact mem_createdIds.2 (hcontains.resolve_left hid)

end ThreadTable

namespace Policy

variable {table : ThreadTable} {id : ThreadId}

theorem mem_turnOrder {start : ThreadId} (hmem : id ∈ table.createdIds) (hid : id ≠ start) :
    id ∈ turnOrder table start := by
  have hne : id.val ≠ start.val := fun heq => hid (Fin.ext heq)
  rw [turnOrder, List.mem_append, ThreadTable.mem_drop_createdIds, ThreadTable.mem_take_createdIds]
  rcases Nat.lt_or_gt_of_ne hne with hbefore | hbehind
  · exact .inr ⟨hmem, hbefore⟩
  · exact .inl ⟨hmem, hbehind⟩

theorem firstReady_eq_none {candidates : List ThreadId} (h : firstReady table candidates = none)
    (hmem : id ∈ candidates) : table.state id ≠ .ready := by
  have hready := List.find?_eq_none.1 h id hmem
  simpa using hready

/-- Round robin runs the idle thread when no other thread is ready. -/
theorem not_ready_of_choose_idle (h : roundRobin.choose table = ThreadId.idle)
    (hmem : id ∈ table.createdIds) (hid : id ≠ table.current) : table.state id ≠ .ready := by
  simp only [choose, roundRobin] at h
  split at h
  next =>
      cases hfirst : firstReady table table.createdIds with
      | none => exact firstReady_eq_none hfirst hmem
      | some other =>
          rw [hfirst, Option.getD_some] at h
          exact absurd (h ▸ (firstReady_eq_some hfirst).1) table.idle_not_mem_createdIds
  next =>
      cases hfirst : firstReady table (turnOrder table table.current) with
      | none => exact firstReady_eq_none hfirst (mem_turnOrder hmem hid)
      | some other =>
          rw [hfirst, Option.getD_some] at h
          have hother := mem_createdIds_of_mem_turnOrder (firstReady_eq_some hfirst).1
          exact absurd (h ▸ hother) table.idle_not_mem_createdIds

/-- Round robin does not run the idle thread in the place of one that goes on running. -/
theorem not_running_of_choose_idle (h : roundRobin.choose table = ThreadId.idle)
    (hcurrent : table.current ≠ ThreadId.idle) : table.state table.current ≠ .running := by
  intro hrunning
  simp only [choose, roundRobin, if_neg hcurrent] at h
  cases hfirst : firstReady table (turnOrder table table.current) with
  | none =>
      rw [hfirst, Option.getD_none, fallback, if_pos hrunning] at h
      exact hcurrent h
  | some other =>
      rw [hfirst, Option.getD_some] at h
      have hother := mem_createdIds_of_mem_turnOrder (firstReady_eq_some hfirst).1
      exact absurd (h ▸ hother) table.idle_not_mem_createdIds

end Policy

end TickKernel
