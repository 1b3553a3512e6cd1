import TickKernel.Thread.Id

/-!
# Failures

The causes for which an operation fails, each with its one wording.  A failure
as a caller sees it names the part of the kernel that refused.
-/

namespace TickKernel

inductive CreationFailure where
  | tableFull
  /-- The stack and the reserved frames together exceed the address space. -/
  | stackTooLarge (bytes : UInt64)
  deriving DecidableEq, Repr

inductive SchedulingFailure where
  | noSuchThread (id : ThreadId)
  | alreadyStarted
  deriving DecidableEq, Repr

inductive MemoryFailure where
  | outOfMemory
  /-- No block of that many bytes can be described to the allocator. -/
  | invalidLayout (bytes : UInt64)
  deriving DecidableEq, Repr

inductive TimerFailure where
  /-- The period, in microseconds, is not one that the timer can count. -/
  | invalidPeriod (period : UInt32)
  | notAvailable
  deriving DecidableEq, Repr

/-- Why an operation failed. -/
inductive Failure where
  | creation (cause : CreationFailure)
  | scheduling (cause : SchedulingFailure)
  | memory (cause : MemoryFailure)
  | timer (cause : TimerFailure)
  deriving DecidableEq, Repr

def CreationFailure.message : CreationFailure → String
  | tableFull => "Thread table is full"
  | stackTooLarge bytes => "Stack size too large: " ++ toString bytes.toNat

def SchedulingFailure.message : SchedulingFailure → String
  | noSuchThread id => "No such thread: " ++ toString id.val
  | alreadyStarted => "Kernel already started"

def MemoryFailure.message : MemoryFailure → String
  | outOfMemory => "Out of memory"
  | invalidLayout bytes =>
      "Invalid stack layout for " ++ toString bytes.toNat ++ " bytes"

def TimerFailure.message : TimerFailure → String
  | invalidPeriod period =>
      "Invalid tick period: " ++ toString period.toNat ++ " us"
  | notAvailable => "Tick timer not available"

namespace Failure

def detail : Failure → String
  | creation cause => cause.message
  | scheduling cause => cause.message
  | memory cause => cause.message
  | timer cause => cause.message

def area : Failure → String
  | creation _ => "Thread creation error"
  | scheduling _ => "Scheduling error"
  | memory _ => "Memory error"
  | timer _ => "Timer error"

def message (failure : Failure) : String :=
  failure.area ++ ": " ++ failure.detail

end Failure

end TickKernel
