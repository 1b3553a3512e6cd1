import TickKernel.Backend
import TickKernel.Thread.Report

/-!
# Requests and elementary steps

A kernel operation is a list of elementary steps: acquire or drop an interrupt
guard, take or release a spin lock, one access to the state, a context switch.
The steps that are still to be executed are data.  A step that reads the state
puts the steps that depend on the answer in front of the remaining ones, with the
answer written into them, so no other place has to keep it.
-/

namespace TickKernel

/-- The spin locks.  Each is held only for a few steps, and only while masked. -/
inductive SpinLock where
  | table
  | console
  | semaphore (index : Nat)
  | mutex (index : Nat)
  deriving DecidableEq, Repr

inductive Query where
  | mutexLocked (mutex : Nat)
  | mutexOwner (mutex : Nat)
  | mutexWaiting (mutex : Nat)
  | semaphoreValue (semaphore : Nat)
  | semaphoreWaiting (semaphore : Nat)
  deriving DecidableEq, Repr

inductive Reply where
  | done
  | failed (cause : Failure)
  | thread (id : ThreadId)
  | count (value : Nat)
  | flag (value : Bool)
  | level (value : Int32)
  | owner (id : Option ThreadId)
  | info (info : Option ThreadInfo)
  | stats (stats : SystemStats)
  | sink (index : Option Nat)
  deriving DecidableEq, Repr

structure Creation where
  name : String
  call : EntryCall
  /-- Bytes for the thread itself; the reserved frames come on top. -/
  stackSize : UInt64
  /-- What the allocator would answer to the request for the stack. -/
  block : Option UInt64
  /-- The packet of a closure, given up if the thread is not created. -/
  packet : Option Nat
  deriving DecidableEq, Repr

inductive Request where
  /-- Create a thread that calls an entry routine. -/
  | create (name : String) (call : EntryCall) (stackSize : UInt64) (block : Option UInt64)
  /-- Create a thread that runs a closure. -/
  | spawn (name : String) (body : Nat) (stackSize : UInt64) (block : Option UInt64)
  | start
  | currentId
  | threadCount
  | selectNext
  | switchTo (target : ThreadId)
  | tick
  | sleep (ticks : UInt32)
  | yield
  | park
  /-- Return from a closure, after which its thread parks. -/
  | leave
  | info (id : ThreadId)
  | stats
  | report
  | lock (mutex : Nat)
  | unlock (mutex : Nat)
  | wait (semaphore : Nat)
  | signal (semaphore : Nat)
  | signalHandoff (semaphore : Nat)
  | inspect (query : Query)
  /-- Print a piece of text. -/
  | print (piece : String)
  /-- Print a line. -/
  | printLine (text : String)
  | install (sink : Nat)
  | remove
  | setInterrupts (enabled : Bool)
  deriving DecidableEq, Repr

/-- A blocking call, by what its loop waits for. -/
inductive Blocking where
  /-- Sleep until the tick count reaches `wakeAt`. -/
  | until (wakeAt : UInt64)
  | ownership (mutex : Nat)
  | unit (semaphore : Nat)
  /-- Park for good. -/
  | forever
  deriving DecidableEq, Repr

inductive IdentityUse where
  | answer
  | acquire (mutex : Nat)
  | release (mutex : Nat)
  | take (semaphore : Nat)
  deriving DecidableEq, Repr

inductive CountUse where
  | answer
  /-- The line printed at the start. -/
  | banner
  deriving DecidableEq, Repr

inductive ChoiceUse where
  | answer
  | dispatch
  deriving DecidableEq, Repr

inductive SnapshotUse where
  | answer
  | print
  deriving DecidableEq, Repr

/-- An elementary step. -/
inductive Step where
  /-- Acquire an interrupt guard. -/
  | mask
  /-- Drop the newest interrupt guard. -/
  | unmask
  /-- Take a spin lock; spins while it is taken. -/
  | take (lock : SpinLock)
  | free (lock : SpinLock)
  /-- Set the interrupt flag, whatever guards there are. -/
  | setFlag (enabled : Bool)
  /-- Return to the caller. -/
  | finish (reply : Reply)
  /-- Return from the interrupt, which enables interrupts again. -/
  | resume
  /-- Return from the start routine into the thread's entry routine. -/
  | enter (call : EntryCall)
  /-- The top of a blocking call's loop. -/
  | retry (call : Blocking)
  -- the thread table
  | identify (use : IdentityUse)
  | countThreads (use : CountUse)
  | choose (use : ChoiceUse)
  | checkTarget (target : ThreadId)
  | dispatch (target : ThreadId)
  | switch (next prev : ThreadId)
  | block
  | doze (ticks : UInt64)
  | wake (id : ThreadId)
  | describe (id : ThreadId)
  | snapshot (use : SnapshotUse)
  -- time
  | countTick
  | countDown
  | closeInterval
  | setDeadline (ticks : UInt32)
  | checkDeadline (wakeAt : UInt64)
  -- creation
  | pack (name : String) (body : Nat) (stackSize : UInt64) (block : Option UInt64)
  | checkRoom (creation : Creation)
  | allocate (creation : Creation)
  | writeFrame (creation : Creation) (stack : Stack)
  | enroll (creation : Creation) (stack : Stack)
  | savePointer (id : ThreadId) (pointer : UInt64)
  | discard (packet : Nat)
  | leaveBody
  -- starting
  | claimStart
  | armTimer
  | withdrawStart
  | routeTicks
  -- synchronization
  | tryAcquire (mutex : Nat) (me : ThreadId)
  | tryRelease (mutex : Nat) (me : ThreadId)
  | tryTake (semaphore : Nat) (me : ThreadId)
  /-- Give a unit back, and perhaps pass the processor to the woken thread. -/
  | giveBack (semaphore : Nat) (andSwitch : Bool)
  | inspect (query : Query)
  -- console
  | print (piece : String)
  | install (sink : Nat)
  | remove
  deriving DecidableEq, Repr

def Query.lock : Query → SpinLock
  | mutexLocked mutex | mutexOwner mutex | mutexWaiting mutex => .mutex mutex
  | semaphoreValue semaphore | semaphoreWaiting semaphore => .semaphore semaphore

end TickKernel
