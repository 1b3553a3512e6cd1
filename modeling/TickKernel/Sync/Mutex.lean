import TickKernel.Sync.Semaphore

/-!
# Mutexes with handoff

The state of a mutex and what happens to it while its lock is held.  Releasing a
mutex that others wait for makes the oldest waiter the owner at once, so no third
thread can take it in between.
-/

namespace TickKernel

structure Mutex where
  owner : Option ThreadId
  locked : Bool
  waiters : WaitQueue
  deriving DecidableEq, Repr, Inhabited

namespace Mutex

def new : Mutex := ⟨none, false, Ring.empty⟩

inductive Attempt where
  /-- The thread is the owner. -/
  | acquired (after : Mutex)
  /-- Another thread is, and this one is in the queue. -/
  | queued (after : Mutex)

/--
Try to acquire.  The owner finds itself the owner, whether it locks again or was
handed the mutex while it waited.
-/
def acquire (mutex : Mutex) (me : ThreadId) : Attempt :=
  if !mutex.locked then .acquired { mutex with locked := true, owner := some me }
  else if mutex.owner = some me then .acquired mutex
  else if mutex.waiters.contains me then .queued mutex
  else .queued { mutex with waiters := (mutex.waiters.put me).2 }

inductive Release where
  /-- The caller does not own the mutex, and nothing happens. -/
  | refused
  /-- The mutex passes to `heir`, or is free when there is none. -/
  | passed (heir : Option ThreadId) (after : Mutex)

/-- Release a mutex, which only its owner can do. -/
def release (mutex : Mutex) (me : ThreadId) : Release :=
  if !mutex.locked || mutex.owner != some me then .refused
  else
    let (heir, waiters) := mutex.waiters.get
    .passed heir ⟨heir, heir.isSome, waiters⟩

def waiting (mutex : Mutex) : Nat :=
  mutex.waiters.size

theorem release_of_not_owner {mutex : Mutex} {me : ThreadId} (h : mutex.owner ≠ some me) :
    mutex.release me = .refused := by
  simp [release, h]

end Mutex

end TickKernel
