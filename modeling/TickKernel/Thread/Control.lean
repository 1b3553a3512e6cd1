import TickKernel.Stack
import TickKernel.Thread.Id
import TickKernel.Thread.Name

/-!
# Thread control blocks

What the table keeps about one thread.  The saved stack pointer is not part of
it: the kernel keeps that beside the table, where a context switch can write it
without the table lock.
-/

namespace TickKernel

/-- The table's record of one thread. -/
structure ControlBlock where
  id : ThreadId
  name : String
  /-- Address of the entry routine, zero for the idle thread. -/
  entry : UInt64
  /-- The idle thread runs on the boot stack and owns none. -/
  stack : Option Stack
  state : ThreadState
  /-- Ticks left to sleep. -/
  sleepTicks : UInt32
  /-- Dispatches in the open statistics interval. -/
  dispatches : UInt32
  /-- Dispatches in the last closed interval. -/
  lastDispatches : UInt32
  deriving DecidableEq, Repr, Inhabited

namespace ControlBlock

/-- A thread just created: ready, and never dispatched. -/
def created (id : ThreadId) (name : String) (entry : UInt64) (stack : Stack) : ControlBlock where
  id := id
  name := ThreadName.bounded name
  entry := entry
  stack := some stack
  state := .ready
  sleepTicks := 0
  dispatches := 0
  lastDispatches := 0

/-- The idle thread, already running: its first dispatch is counted. -/
def idle : ControlBlock where
  id := ThreadId.idle
  name := ThreadName.bounded "main"
  entry := 0
  stack := none
  state := .running
  sleepTicks := 0
  dispatches := 1
  lastDispatches := 0

def vacant (id : ThreadId) : ControlBlock where
  id := id
  name := ""
  entry := 0
  stack := none
  state := .waiting
  sleepTicks := 0
  dispatches := 0
  lastDispatches := 0

/-- One tick off a sleeping thread; at zero it becomes ready. -/
def countDown (block : ControlBlock) : ControlBlock :=
  if block.state = .sleeping then
    let left := if block.sleepTicks = 0 then 0 else block.sleepTicks - 1
    { block with
      sleepTicks := left
      state := if left = 0 then .ready else .sleeping }
  else block

def closeInterval (block : ControlBlock) : ControlBlock :=
  { block with lastDispatches := block.dispatches, dispatches := 0 }

def dispatched (block : ControlBlock) : ControlBlock :=
  { block with state := .running, dispatches := block.dispatches + 1 }

def preempted (block : ControlBlock) : ControlBlock :=
  if block.state = .running then { block with state := .ready } else block

/-- A waiting thread becomes ready; any other is left alone. -/
def woken (block : ControlBlock) : ControlBlock :=
  if block.state = .waiting then { block with state := .ready } else block

def blocked (block : ControlBlock) : ControlBlock :=
  { block with state := .waiting }

/-- Block for `ticks` ticks; a countdown too long for its field stands at the greatest. -/
def asleep (block : ControlBlock) (ticks : UInt64) : ControlBlock :=
  { block with
    state := .sleeping
    sleepTicks := if ticks.toNat < UInt32.size then ticks.toUInt32 else UInt32.ofNat (UInt32.size - 1) }

def identity (block : ControlBlock) : ThreadId × String × UInt64 × Option Stack :=
  (block.id, block.name, block.entry, block.stack)

@[simp]
theorem identity_countDown (block : ControlBlock) : block.countDown.identity = block.identity := by
  unfold countDown
  split <;> rfl

@[simp]
theorem identity_closeInterval (block : ControlBlock) :
    block.closeInterval.identity = block.identity :=
  rfl

@[simp]
theorem identity_dispatched (block : ControlBlock) : block.dispatched.identity = block.identity :=
  rfl

@[simp]
theorem identity_preempted (block : ControlBlock) : block.preempted.identity = block.identity := by
  unfold preempted
  split <;> rfl

@[simp]
theorem identity_woken (block : ControlBlock) : block.woken.identity = block.identity := by
  unfold woken
  split <;> rfl

@[simp]
theorem identity_blocked (block : ControlBlock) : block.blocked.identity = block.identity :=
  rfl

@[simp]
theorem identity_asleep (block : ControlBlock) (ticks : UInt64) :
    (block.asleep ticks).identity = block.identity :=
  rfl

end ControlBlock

end TickKernel
