import TickKernel.Kernel.Machine
import TickKernel.Workload.Script

/-!
# Events of a workload

What is written down while a workload runs: which thread got past which line of
its script, with what result, and how the kernel stood just after it.
-/

namespace TickKernel.Workload

inductive Result where
  | nothing
  | ok
  | created (id : ThreadId)
  /-- Refused; for a closure also whether it was dropped. -/
  | refused (cause : Failure) (dropped : Option Bool)
  /-- The action names a slot that there is not. -/
  | outOfRange
  | thread (id : ThreadId)
  | table (table : ThreadTable) (chosen : ThreadId)
  | info (info : Option ThreadInfo)
  | stats (stats : SystemStats)
  | policy (name : String)
  /-- What the other kernel says of itself. -/
  | peer (count : Nat) (current : ThreadId)
  | span (span : Span)
  | flag (value : Bool)
  | ticks (count : Nat)
  /-- The idle thread can never go on. -/
  | stuck

structure Snapshot where
  current : ThreadId
  ticks : UInt64
  /-- The created threads, then the idle thread. -/
  threads : List ControlBlock
  semaphores : List Semaphore
  mutexes : List Mutex
  /-- Whether the executing thread takes interrupts. -/
  interrupts : Bool

def Snapshot.of {P : Type} (m : Machine P) : Snapshot where
  current := m.kernel.table.current
  ticks := m.kernel.ticks.ticks
  threads := m.kernel.table.ids.map m.kernel.table.block
  semaphores := m.shared.semaphores.toList
  mutexes := m.shared.mutexes.toList
  interrupts := m.interruptsEnabled

inductive Occurrence where
  /-- A thread begins its script, with the argument of its entry routine. -/
  | begins (argument : Option UInt64)
  /-- A thread is through with its script. -/
  | ends
  /-- The timer interrupts the blocked idle thread. -/
  | idleTick
  /-- A thread got past a line of its script. -/
  | did (index : Nat) (action : Action) (result : Result)

/-- Something that happened to a thread, and how the kernel stood just after it. -/
structure Event where
  thread : ThreadId
  occurrence : Occurrence
  snapshot : Snapshot

end TickKernel.Workload
