import TickKernel.Ring
import TickKernel.Thread.Id

/-!
# Counting semaphores

The state of a semaphore and what happens to it while its lock is held: a thread
takes a unit or queues up, and a signal gives a unit back and takes the oldest
waiter off the queue.  A woken waiter has no claim on the unit; it competes again.
-/

namespace TickKernel

/-- Blocked threads, with a slot for every thread there can be. -/
abbrev WaitQueue := Ring ThreadId maxThreads

structure Semaphore where
  value : Int32
  waiters : WaitQueue
  deriving DecidableEq, Repr, Inhabited

namespace Semaphore

def new (value : Int32) : Semaphore := ⟨value, Ring.empty⟩

inductive Attempt where
  /-- It has its unit. -/
  | taken (after : Semaphore)
  /-- There was none, and the thread is in the queue. -/
  | queued (after : Semaphore)

/--
Try to take a unit.  A thread is queued at most once, however often it comes
back to look.
-/
def take (semaphore : Semaphore) (me : ThreadId) : Attempt :=
  if 0 < semaphore.value then .taken { semaphore with value := semaphore.value - 1 }
  else if semaphore.waiters.contains me then .queued semaphore
  else .queued { semaphore with waiters := (semaphore.waiters.put me).2 }

def bumped (value : Int32) : Int32 :=
  if value = Int32.maxValue then value else value + 1

/-- Give a unit back and take the oldest waiter off the queue. -/
def release (semaphore : Semaphore) : Option ThreadId × Semaphore :=
  let (woken, waiters) := semaphore.waiters.get
  (woken, ⟨bumped semaphore.value, waiters⟩)

def waiting (semaphore : Semaphore) : Nat :=
  semaphore.waiters.size

@[simp]
theorem value_new (value : Int32) : (new value).value = value :=
  rfl

end Semaphore

end TickKernel
