import TickKernel.Thread.Table

/-!
# Scheduling policies

A policy looks at the thread table and names the thread to run next.  It may keep a
state of its own, so that the tables which it was shown before count as well.  The
kernel works with every policy that keeps the contract `Policy.Sound`; the two that
are given go by the table alone.
-/

namespace TickKernel

structure Policy where
  name : String
  /-- The choice for a table, after the tables that were shown before, newest first. -/
  chooseAfter : List ThreadTable → ThreadTable → ThreadId

namespace Policy

/--
The contract: a policy names a ready thread that exists, or the current thread
while it is still running, or the idle thread, which is always a valid answer.
-/
def Sound (policy : Policy) : Prop :=
  ∀ (shown : List ThreadTable) (table : ThreadTable),
    (table.contains (policy.chooseAfter shown table) = true ∧
        table.state (policy.chooseAfter shown table) = .ready) ∨
      (policy.chooseAfter shown table = table.current ∧
        table.state table.current = .running) ∨
      policy.chooseAfter shown table = ThreadId.idle

/-- The choice for the first table that is shown. -/
def choose (policy : Policy) (table : ThreadTable) : ThreadId :=
  policy.chooseAfter [] table

def firstReady (table : ThreadTable) (candidates : List ThreadId) : Option ThreadId :=
  candidates.find? fun id => table.state id == .ready

/--
The created threads in the order in which a turn passes on from `start`: those
after it, then those before it.  `start` itself is left out.
-/
def turnOrder (table : ThreadTable) (start : ThreadId) : List ThreadId :=
  table.createdIds.drop (start.val + 1) ++ table.createdIds.take start.val

def fallback (table : ThreadTable) : ThreadId :=
  if table.state table.current = .running then table.current else ThreadId.idle

/--
Turns pass round the created threads in creation order.  From the idle thread the
search begins at the first of them, and with none ready the idle thread goes on.
-/
def roundRobin : Policy where
  name := "rr"
  chooseAfter _ table :=
    if table.current = ThreadId.idle then
      (firstReady table table.createdIds).getD ThreadId.idle
    else
      (firstReady table (turnOrder table table.current)).getD (fallback table)

/-- The created thread with the lowest number goes first. -/
def lowestFirst : Policy where
  name := "lowest"
  chooseAfter _ table := (firstReady table table.createdIds).getD (fallback table)

theorem firstReady_eq_some {table : ThreadTable} {candidates : List ThreadId} {id : ThreadId}
    (h : firstReady table candidates = some id) :
    id ∈ candidates ∧ table.state id = .ready := by
  refine ⟨List.mem_of_find?_eq_some h, ?_⟩
  simpa using List.find?_some h

theorem contains_of_mem_createdIds {table : ThreadTable} {id : ThreadId}
    (h : id ∈ table.createdIds) : table.contains id = true := by
  obtain ⟨index, bound, rfl⟩ := List.mem_take_iff_getElem.1 h
  have : index < table.count := by
    simp only [ThreadId.all, List.length_finRange] at bound
    omega
  simp [ThreadTable.contains, ThreadId.all, this]

theorem mem_createdIds_of_mem_turnOrder {table : ThreadTable} {start id : ThreadId}
    (h : id ∈ turnOrder table start) : id ∈ table.createdIds := by
  rcases List.mem_append.1 h with h | h
  · exact List.mem_of_mem_drop h
  · exact List.mem_of_mem_take h

theorem fallback_sound (table : ThreadTable) :
    (fallback table = table.current ∧ table.state table.current = .running) ∨
      fallback table = ThreadId.idle := by
  unfold fallback
  split
  next h => exact .inl ⟨rfl, h⟩
  next => exact .inr rfl

theorem sound_roundRobin : roundRobin.Sound := by
  intro _ table
  simp only [roundRobin]
  split
  next =>
    cases h : firstReady table table.createdIds with
    | none => exact .inr (.inr rfl)
    | some id =>
        obtain ⟨hmem, hready⟩ := firstReady_eq_some h
        exact .inl ⟨contains_of_mem_createdIds hmem, hready⟩
  next =>
    cases h : firstReady table (turnOrder table table.current) with
    | none => exact .inr (fallback_sound table)
    | some id =>
        obtain ⟨hmem, hready⟩ := firstReady_eq_some h
        exact .inl ⟨contains_of_mem_createdIds (mem_createdIds_of_mem_turnOrder hmem), hready⟩

theorem sound_lowestFirst : lowestFirst.Sound := by
  intro _ table
  simp only [lowestFirst]
  cases h : firstReady table table.createdIds with
  | none => exact .inr (fallback_sound table)
  | some id =>
      obtain ⟨hmem, hready⟩ := firstReady_eq_some h
      exact .inl ⟨contains_of_mem_createdIds hmem, hready⟩

end Policy

end TickKernel
