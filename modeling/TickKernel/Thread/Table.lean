import TickKernel.Thread.Control

/-!
# The thread table

Created threads fill the slots from the first one on, in creation order, and are
never removed; the last slot holds the idle thread.  Every change of scheduling
state is one of the operations of this table.
-/

namespace TickKernel

/-- Control blocks by slot, how many threads were created, and who has the processor. -/
structure ThreadTable where
  slots : Vector ControlBlock maxThreads
  count : Nat
  current : ThreadId
  count_le : count ≤ maxCreated

namespace ThreadTable

def initial : ThreadTable where
  slots := Vector.ofFn fun id =>
    if id = ThreadId.idle then ControlBlock.idle else ControlBlock.vacant id
  count := 0
  current := ThreadId.idle
  count_le := Nat.zero_le _

instance : Inhabited ThreadTable := ⟨initial⟩

def block (table : ThreadTable) (id : ThreadId) : ControlBlock :=
  table.slots[id]

def modify (table : ThreadTable) (id : ThreadId) (change : ControlBlock → ControlBlock) :
    ThreadTable :=
  { table with slots := table.slots.set id (change (table.block id)) }

def modifyCurrent (table : ThreadTable) (change : ControlBlock → ControlBlock) : ThreadTable :=
  table.modify table.current change

def isFull (table : ThreadTable) : Bool :=
  table.count == maxCreated

/-- Whether a slot belongs to the idle thread or to a created one. -/
def contains (table : ThreadTable) (id : ThreadId) : Bool :=
  id == ThreadId.idle || id.val < table.count

def get? (table : ThreadTable) (id : ThreadId) : Option ControlBlock :=
  if table.contains id then some (table.block id) else none

def state (table : ThreadTable) (id : ThreadId) : ThreadState :=
  (table.block id).state

/-- Identities of the created threads, in creation order. -/
def createdIds (table : ThreadTable) : List ThreadId :=
  ThreadId.all.take table.count

def created (table : ThreadTable) : List ControlBlock :=
  table.createdIds.map table.block

/-- Identities of the threads that exist: the created ones, then the idle thread. -/
def ids (table : ThreadTable) : List ThreadId :=
  table.createdIds ++ [ThreadId.idle]

def insert (table : ThreadTable) (make : ThreadId → ControlBlock) :
    Option (ThreadId × ThreadTable) :=
  if room : table.count < maxCreated then
    let id : ThreadId := ⟨table.count, Nat.lt_of_lt_of_le room (Nat.sub_le _ _)⟩
    some (id,
      { table with
        slots := table.slots.set id (make id)
        count := table.count + 1
        count_le := room })
  else none

/--
Whether dispatching `target` only hands the processor back: the current thread
blocked, and nothing else was found to run.  A hand-back is no dispatch; it is
neither counted nor marked as running.
-/
def handsBack (table : ThreadTable) (target : ThreadId) : Bool :=
  table.current == target && (table.state target).isBlocked

/--
Make `target` the running thread.  The outgoing thread goes back to ready only if
it was still running; one that blocked keeps its state.
-/
def dispatch (table : ThreadTable) (target : ThreadId) : ThreadTable :=
  if table.handsBack target then table
  else
    { (table.modifyCurrent ControlBlock.preempted).modify target ControlBlock.dispatched with
      current := target }

def countDown (table : ThreadTable) : ThreadTable :=
  { table with
    slots := Vector.ofFn fun id =>
      if table.contains id then (table.block id).countDown else table.block id }

def closeInterval (table : ThreadTable) : ThreadTable :=
  { table with slots := table.slots.map ControlBlock.closeInterval }

def wake (table : ThreadTable) (id : ThreadId) : ThreadTable :=
  if table.contains id then table.modify id ControlBlock.woken else table

@[simp]
theorem block_modify_self (table : ThreadTable) (id : ThreadId)
    (change : ControlBlock → ControlBlock) :
    (table.modify id change).block id = change (table.block id) := by
  simp [modify, block]

theorem block_modify_of_ne (table : ThreadTable) {id other : ThreadId}
    (change : ControlBlock → ControlBlock) (h : other ≠ id) :
    (table.modify id change).block other = table.block other := by
  have hval : id.val ≠ other.val := fun e => h (Fin.ext e.symm)
  simp [modify, block, hval]

@[simp]
theorem block_closeInterval (table : ThreadTable) (id : ThreadId) :
    table.closeInterval.block id = (table.block id).closeInterval := by
  simp [closeInterval, block]

@[simp]
theorem block_countDown (table : ThreadTable) (id : ThreadId) :
    table.countDown.block id =
      if table.contains id then (table.block id).countDown else table.block id := by
  simp [countDown, block]

theorem contains_idle (table : ThreadTable) : table.contains ThreadId.idle = true := by
  simp [contains]

theorem insert_eq_none_iff (table : ThreadTable) (make : ThreadId → ControlBlock) :
    table.insert make = none ↔ table.isFull = true := by
  have bound := table.count_le
  unfold insert isFull
  split
  next room => simpa using Nat.ne_of_lt room
  next full => simpa using Nat.le_antisymm bound (Nat.le_of_not_lt full)

@[simp]
theorem count_dispatch (table : ThreadTable) (target : ThreadId) :
    (table.dispatch target).count = table.count := by
  unfold dispatch
  split <;> rfl

theorem current_dispatch (table : ThreadTable) (target : ThreadId) :
    (table.dispatch target).current = target := by
  unfold dispatch
  split
  next h =>
    simp only [handsBack, Bool.and_eq_true, beq_iff_eq] at h
    exact h.1
  next => rfl

theorem handsBack_iff (table : ThreadTable) (target : ThreadId) :
    table.handsBack target = true ↔
      table.current = target ∧ (table.state target).isBlocked = true := by
  simp [handsBack]

theorem state_dispatch_self {table : ThreadTable} {target : ThreadId}
    (h : table.handsBack target = false) :
    (table.dispatch target).state target = .running := by
  have hblock : (table.dispatch target).block target =
      ((table.modifyCurrent ControlBlock.preempted).block target).dispatched := by
    simp only [dispatch, h]
    exact block_modify_self _ _ _
  simp [state, hblock, ControlBlock.dispatched]

theorem block_dispatch_of_ne {table : ThreadTable} {target id : ThreadId}
    (h : id ≠ target) (hc : id ≠ table.current) :
    (table.dispatch target).block id = table.block id := by
  unfold dispatch
  split
  next => rfl
  next =>
    have htarget := block_modify_of_ne (table.modifyCurrent ControlBlock.preempted)
      ControlBlock.dispatched h
    have hcurrent := block_modify_of_ne table ControlBlock.preempted hc
    exact htarget.trans hcurrent

theorem block_wake_of_ne (table : ThreadTable) {id other : ThreadId} (h : other ≠ id) :
    (table.wake id).block other = table.block other := by
  unfold wake
  split
  next => exact block_modify_of_ne table ControlBlock.woken h
  next => rfl

@[simp]
theorem current_wake (table : ThreadTable) (id : ThreadId) :
    (table.wake id).current = table.current := by
  unfold wake
  split <;> rfl

theorem count_of_insert {table after : ThreadTable} {make : ThreadId → ControlBlock}
    {id : ThreadId} (h : table.insert make = some (id, after)) :
    id.val = table.count ∧ after.count = table.count + 1 := by
  unfold insert at h
  split at h
  next =>
    simp only [Option.some.injEq, Prod.mk.injEq] at h
    obtain ⟨rfl, rfl⟩ := h
    exact ⟨rfl, rfl⟩
  next => cases h

end ThreadTable

end TickKernel
