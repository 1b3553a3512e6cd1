import TickKernel.Console
import TickKernel.Kernel.Code
import TickKernel.Masking
import TickKernel.Policy
import TickKernel.Sync.Mutex

/-!
# The machine

A kernel, the contexts of its threads, and what it shares with other kernels of
the same process.  One thread executes at a time; the others stand still with the
steps that they still have to do.
-/

namespace TickKernel

/-- What is kept of one thread beside the table: its place in the code. -/
structure Context where
  masking : Masking := .unguarded true
  /-- Spin locks held, newest first. -/
  held : List SpinLock := []
  /-- Steps still to do; none while the thread's own code runs. -/
  code : List Step := []
  /-- What the last operation answered, once it has returned. -/
  answer : Option Reply := none
  /-- Calls of entry routines, newest first. -/
  entered : List EntryCall := []
  deriving DecidableEq, Repr, Inhabited

/-- A closure handed to a new thread. -/
structure Packet where
  body : Nat
  /-- Threads that took the closure to run it, newest first. -/
  takers : List ThreadId := []
  /-- How often the closure was dropped without being run. -/
  drops : Nat := 0
  /-- Whether the closure has returned. -/
  returned : Bool := false
  deriving DecidableEq, Repr, Inhabited

/-- What one kernel owns. -/
structure Kernel (P : Type) where
  /-- Tells the kernels of a process apart. -/
  number : Nat
  config : Config
  policy : Policy
  /-- Tables that the policy was shown, newest first. -/
  shown : List ThreadTable
  table : ThreadTable
  tableTaken : Bool
  /-- Saved stack pointer of each slot. -/
  pointers : Vector UInt64 maxThreads
  memory : Memory
  cpu : P
  ticks : TickCounter
  started : Bool

/-- What the kernels of a process share. -/
structure Shared where
  semaphores : Array Semaphore := #[]
  mutexes : Array Mutex := #[]
  console : Console := { sinks := [], installed := none }
  packets : Array Packet := #[]
  /-- Spin locks taken, those of thread tables not included. -/
  taken : List SpinLock := []
  /-- The kernel that timer interrupts tick: the first one started. -/
  tickTarget : Option Nat := none
  deriving DecidableEq, Repr, Inhabited

/-- A kernel at work. -/
structure Machine (P : Type) where
  kernel : Kernel P
  shared : Shared
  contexts : Vector Context maxThreads
  /-- The thread whose steps are being executed. -/
  executing : ThreadId

namespace Shared

/-- Unused semaphores with the given values, unlocked mutexes, and a console. -/
def new (values : List Int32) (mutexes : Nat) (console : Console) : Shared where
  semaphores := (values.map Semaphore.new).toArray
  mutexes := Array.replicate mutexes Mutex.new
  console := console

end Shared

namespace Kernel

variable {P : Type}

/-- A kernel whose only thread is the idle thread. -/
def new (number : Nat) (config : Config) (policy : Policy) (cpu : P) : Kernel P where
  number := number
  config := config
  policy := policy
  shown := []
  table := ThreadTable.initial
  tableTaken := false
  pointers := Vector.replicate maxThreads 0
  memory := Memory.blank
  cpu := cpu
  ticks := { period := config.tickPeriod }
  started := false

def choice (kernel : Kernel P) : ThreadId :=
  kernel.policy.chooseAfter kernel.shown kernel.table

/-- Round robin goes by the table alone. -/
theorem choice_of_roundRobin {kernel : Kernel P} (h : kernel.policy = .roundRobin) :
    kernel.choice = Policy.roundRobin.choose kernel.table := by
  rw [choice, h]
  rfl

/-- The policy is shown the table. -/
def consult (kernel : Kernel P) : Kernel P :=
  { kernel with shown := kernel.table :: kernel.shown }

def infoOf (kernel : Kernel P) (block : ControlBlock) : ThreadInfo :=
  ThreadInfo.ofBlock block
    (if block.id = kernel.table.current then none else some kernel.pointers[block.id])

def info? (kernel : Kernel P) (id : ThreadId) : Option ThreadInfo :=
  (kernel.table.get? id).map kernel.infoOf

def stats (kernel : Kernel P) : SystemStats :=
  SystemStats.gather kernel.ticks.elapsed kernel.table.count
    (kernel.table.created.map kernel.infoOf)

end Kernel

namespace Machine

variable {P : Type}

/-- A new kernel, run by its idle thread. -/
def boot (kernel : Kernel P) (shared : Shared) : Machine P where
  kernel := kernel
  shared := shared
  contexts := Vector.replicate maxThreads {}
  executing := ThreadId.idle

/-- A new kernel with synchronization objects that nobody has used. -/
def fresh (config : Config) (policy : Policy) (cpu : P) (values : List Int32) (mutexes : Nat)
    (console : Console) : Machine P :=
  boot (Kernel.new 1 config policy cpu) (Shared.new values mutexes console)

def contextOf (m : Machine P) (id : ThreadId) : Context :=
  m.contexts.get id

def context (m : Machine P) : Context :=
  m.contextOf m.executing

@[simp]
theorem contextOf_fresh (config : Config) (policy : Policy) (cpu : P) (values : List Int32)
    (mutexes : Nat) (console : Console) (id : ThreadId) :
    (fresh config policy cpu values mutexes console).contextOf id = {} := by
  show (Vector.replicate maxThreads ({} : Context))[id] = {}
  simp

@[simp]
theorem context_fresh (config : Config) (policy : Policy) (cpu : P) (values : List Int32)
    (mutexes : Nat) (console : Console) :
    (fresh config policy cpu values mutexes console).context = {} :=
  contextOf_fresh config policy cpu values mutexes console ThreadId.idle

def interruptsEnabled (m : Machine P) : Bool :=
  m.context.masking.enabled

/-- Whether the executing thread runs its own code and not the kernel's. -/
def atUserLevel (m : Machine P) : Bool :=
  m.context.code.isEmpty

def modifyContext (m : Machine P) (change : Context → Context) : Machine P :=
  { m with contexts := m.contexts.set m.executing (change m.context) }

def modifyKernel (m : Machine P) (change : Kernel P → Kernel P) : Machine P :=
  { m with kernel := change m.kernel }

def modifyTable (m : Machine P) (change : ThreadTable → ThreadTable) : Machine P :=
  m.modifyKernel fun kernel => { kernel with table := change kernel.table }

def modifyShared (m : Machine P) (change : Shared → Shared) : Machine P :=
  { m with shared := change m.shared }

def modifyMasking (m : Machine P) (change : Masking → Masking) : Machine P :=
  m.modifyContext fun context => { context with masking := change context.masking }

def setCode (m : Machine P) (code : List Step) : Machine P :=
  m.modifyContext fun context => { context with code := code }

def push (m : Machine P) (steps : List Step) : Machine P :=
  m.setCode (steps ++ m.context.code)

def isTaken (m : Machine P) : SpinLock → Bool
  | .table => m.kernel.tableTaken
  | lock => m.shared.taken.contains lock

def setTaken (m : Machine P) (lock : SpinLock) (taken : Bool) : Machine P :=
  match lock with
  | .table => m.modifyKernel fun kernel => { kernel with tableTaken := taken }
  | lock =>
      m.modifyShared fun shared =>
        { shared with
          taken := if taken then lock :: shared.taken else shared.taken.erase lock }

def takeLock (m : Machine P) (lock : SpinLock) : Machine P :=
  (m.setTaken lock true).modifyContext fun context =>
    { context with held := lock :: context.held }

def freeLock (m : Machine P) (lock : SpinLock) : Machine P :=
  (m.setTaken lock false).modifyContext fun context =>
    { context with held := context.held.erase lock }

def setSemaphore (m : Machine P) (index : Nat) (semaphore : Semaphore) : Machine P :=
  m.modifyShared fun shared =>
    { shared with semaphores := shared.semaphores.setIfInBounds index semaphore }

def setMutex (m : Machine P) (index : Nat) (mutex : Mutex) : Machine P :=
  m.modifyShared fun shared =>
    { shared with mutexes := shared.mutexes.setIfInBounds index mutex }

def setConsole (m : Machine P) (console : Console) : Machine P :=
  m.modifyShared fun shared => { shared with console := console }

def modifyPacket (m : Machine P) (index : Nat) (change : Packet → Packet) : Machine P :=
  m.modifyShared fun shared =>
    { shared with packets := shared.packets.modify index change }

def answer (m : Machine P) : Query → Reply
  | .mutexLocked mutex => .flag (m.shared.mutexes[mutex]?.any Mutex.locked)
  | .mutexOwner mutex => .owner (m.shared.mutexes[mutex]?.bind Mutex.owner)
  | .mutexWaiting mutex => .count (m.shared.mutexes[mutex]?.elim 0 Mutex.waiting)
  | .semaphoreValue semaphore =>
      .level (m.shared.semaphores[semaphore]?.elim 0 Semaphore.value)
  | .semaphoreWaiting semaphore =>
      .count (m.shared.semaphores[semaphore]?.elim 0 Semaphore.waiting)

/-! ## What a change leaves alone -/

@[simp]
theorem context_modifyContext (m : Machine P) (change : Context → Context) :
    (m.modifyContext change).context = change m.context := by
  show (m.contexts.set m.executing (change m.context))[m.executing] = change m.context
  simp

@[simp]
theorem kernel_modifyContext (m : Machine P) (change : Context → Context) :
    (m.modifyContext change).kernel = m.kernel :=
  rfl

@[simp]
theorem shared_modifyContext (m : Machine P) (change : Context → Context) :
    (m.modifyContext change).shared = m.shared :=
  rfl

@[simp]
theorem executing_modifyContext (m : Machine P) (change : Context → Context) :
    (m.modifyContext change).executing = m.executing :=
  rfl

@[simp]
theorem context_modifyKernel (m : Machine P) (change : Kernel P → Kernel P) :
    (m.modifyKernel change).context = m.context :=
  rfl

@[simp]
theorem kernel_modifyKernel (m : Machine P) (change : Kernel P → Kernel P) :
    (m.modifyKernel change).kernel = change m.kernel :=
  rfl

@[simp]
theorem shared_modifyKernel (m : Machine P) (change : Kernel P → Kernel P) :
    (m.modifyKernel change).shared = m.shared :=
  rfl

@[simp]
theorem context_modifyShared (m : Machine P) (change : Shared → Shared) :
    (m.modifyShared change).context = m.context :=
  rfl

@[simp]
theorem kernel_modifyShared (m : Machine P) (change : Shared → Shared) :
    (m.modifyShared change).kernel = m.kernel :=
  rfl

@[simp]
theorem shared_modifyShared (m : Machine P) (change : Shared → Shared) :
    (m.modifyShared change).shared = change m.shared :=
  rfl

theorem code_push (m : Machine P) (steps : List Step) :
    (m.push steps).context.code = steps ++ m.context.code := by
  simp [push, setCode]

@[simp]
theorem kernel_push (m : Machine P) (steps : List Step) : (m.push steps).kernel = m.kernel :=
  rfl

@[simp]
theorem shared_push (m : Machine P) (steps : List Step) : (m.push steps).shared = m.shared :=
  rfl

@[simp]
theorem context_modifyTable (m : Machine P) (change : ThreadTable → ThreadTable) :
    (m.modifyTable change).context = m.context :=
  rfl

@[simp]
theorem context_setTaken (m : Machine P) (lock : SpinLock) (taken : Bool) :
    (m.setTaken lock taken).context = m.context := by
  cases lock <;> rfl

@[simp]
theorem context_takeLock (m : Machine P) (lock : SpinLock) :
    (m.takeLock lock).context = { m.context with held := lock :: m.context.held } := by
  simp [takeLock]

@[simp]
theorem context_freeLock (m : Machine P) (lock : SpinLock) :
    (m.freeLock lock).context = { m.context with held := m.context.held.erase lock } := by
  simp [freeLock]

@[simp]
theorem context_modifyMasking (m : Machine P) (change : Masking → Masking) :
    (m.modifyMasking change).context =
      { m.context with masking := change m.context.masking } := by
  simp [modifyMasking]

@[simp]
theorem context_setCode (m : Machine P) (code : List Step) :
    (m.setCode code).context = { m.context with code := code } := by
  simp [setCode]

@[simp]
theorem kernel_setCode (m : Machine P) (code : List Step) : (m.setCode code).kernel = m.kernel :=
  rfl

@[simp]
theorem shared_setCode (m : Machine P) (code : List Step) : (m.setCode code).shared = m.shared :=
  rfl

@[simp]
theorem context_push (m : Machine P) (steps : List Step) :
    (m.push steps).context = { m.context with code := steps ++ m.context.code } := by
  simp [push]

@[simp]
theorem contextOf_setTaken (m : Machine P) (lock : SpinLock) (taken : Bool) (id : ThreadId) :
    (m.setTaken lock taken).contextOf id = m.contextOf id := by
  cases lock <;> rfl

@[simp]
theorem executing_setTaken (m : Machine P) (lock : SpinLock) (taken : Bool) :
    (m.setTaken lock taken).executing = m.executing := by
  cases lock <;> rfl

theorem contextOf_modifyContext_of_ne (m : Machine P) (change : Context → Context)
    {id : ThreadId} (h : id ≠ m.executing) :
    (m.modifyContext change).contextOf id = m.contextOf id := by
  have hval : m.executing.val ≠ id.val := fun e => h (Fin.ext e.symm)
  show (m.contexts.set m.executing (change m.context))[id] = m.contexts[id]
  simp [hval]

end Machine

end TickKernel
