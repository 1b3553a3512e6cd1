import TickKernel.Stack
import TickKernel.Thread.Id

/-!
# Processor backends

What the kernel asks of a processor: the first frame of a new thread, the tick
timer and the switch from one thread to another.  The interrupt flag is not part
of it: it belongs to each thread and is kept with the thread's context.
-/

namespace TickKernel

/-- A call of a thread's entry routine. -/
structure EntryCall where
  entry : UInt64
  argument : UInt64
  deriving DecidableEq, Repr, Inhabited

/-- Address of the routine in which every new thread starts. -/
def startRoutine : UInt64 := 0x1000

/-- A kind of processor, with state of type `P` per kernel. -/
class Backend (P : Type) where
  /-- Bytes kept free on every stack for one interrupt frame and one switch frame. -/
  reserved : P → UInt64
  /-- Words of the switch frame from which a new thread starts. -/
  firstFrame : P → EntryCall → List UInt64
  /-- The call found in a switch frame, if the frame is that of a new thread. -/
  callOfFrame : P → (Nat → UInt64) → Option EntryCall
  /-- Start the periodic tick, whose period is in microseconds. -/
  startTimer : P → UInt32 → Except TimerFailure Unit × P
  /--
  Suspend the thread of slot `prev` in favour of the one of slot `next`.  The
  result tells whether `next` was suspended before and goes on from there; if
  not, it starts from its first frame.
  -/
  switch : P → (next prev : ThreadId) → Bool × P
  /--
  This kernel's processor after other kernels of the process left theirs as the
  second one: the hardware is shared, what is kept per kernel is not.
  -/
  adopt : P → P → P

namespace Backend

variable {P : Type} [Backend P]

def frameBytes (cpu : P) : UInt64 :=
  8 * UInt64.ofNat (firstFrame cpu default).length

/-- Stack pointer of a thread that was never run: its frame ends at the high end. -/
def firstPointer (cpu : P) (stack : Stack) : UInt64 :=
  stack.frameBase (frameBytes cpu)

def writeFirstFrame (cpu : P) (memory : Memory) (stack : Stack) (call : EntryCall) : Memory :=
  memory.writeWords (firstPointer cpu stack) (firstFrame cpu call)

end Backend

end TickKernel
