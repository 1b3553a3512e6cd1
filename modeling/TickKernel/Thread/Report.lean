import TickKernel.Thread.Table
import TickKernel.TickCounter

/-!
# Status reports

Snapshots of one thread and of the whole system, and their text.  A report has
one block of lines per created thread, blocks separated by an empty line.
-/

namespace TickKernel

structure ThreadInfo where
  id : ThreadId
  name : String
  state : ThreadState
  /-- Address of the entry routine, zero for the idle thread. -/
  entry : UInt64
  stackLow : UInt64
  stackHigh : UInt64
  /-- Zero for a thread without a stack of its own. -/
  stackSize : UInt64
  /-- Absent for the current thread, whose stack pointer is in the processor. -/
  savedPointer : Option UInt64
  sleepTicks : UInt32
  dispatches : UInt32
  lastDispatches : UInt32
  deriving DecidableEq, Repr, Inhabited

def hexText (value : UInt64) : String :=
  "0x" ++ String.ofList (Nat.toDigits 16 value.toNat)

namespace ThreadInfo

def ofBlock (block : ControlBlock) (savedPointer : Option UInt64) : ThreadInfo where
  id := block.id
  name := block.name
  state := block.state
  entry := block.entry
  stackLow := block.stack.elim 0 Stack.low
  stackHigh := block.stack.elim 0 Stack.high
  stackSize := block.stack.elim 0 Stack.size
  savedPointer := savedPointer
  sleepTicks := block.sleepTicks
  dispatches := block.dispatches
  lastDispatches := block.lastDispatches

/-- Bytes of stack in use, known for a suspended thread with a stack of its own. -/
def stackUsage (info : ThreadInfo) : Option UInt64 :=
  info.savedPointer.bind fun pointer =>
    if info.stackSize = 0 then none
    else if pointer ≤ info.stackHigh then some (info.stackHigh - pointer)
    else some 0

def lines (info : ThreadInfo) : List String :=
  [ "Thread id: " ++ toString info.id.val,
    "Thread name: " ++ info.name,
    "Thread pc: " ++ hexText info.entry,
    "State: " ++ info.state.label,
    "Scheduled: " ++ toString info.lastDispatches.toNat ++ " last interval, "
      ++ toString info.dispatches.toNat ++ " so far",
    "Stack usage: " ++ info.stackUsage.elim "-" fun used => toString used.toNat ++ " bytes",
    "Total stack size: " ++ toString info.stackSize.toNat ++ " bytes",
    "Current top of stack: " ++ info.savedPointer.elim "(running)" hexText,
    "Stack base: " ++ hexText info.stackHigh,
    "Stack end: " ++ hexText info.stackLow ]

def text (info : ThreadInfo) : String :=
  "\n".intercalate info.lines

end ThreadInfo

structure SystemStats where
  elapsed : Span
  /-- Created threads, the idle thread not included. -/
  threadCount : Nat
  threads : List ThreadInfo
  deriving DecidableEq, Repr, Inhabited

namespace SystemStats

/-- A snapshot has room for one entry per table slot; what comes later is left out. -/
def gather (elapsed : Span) (threadCount : Nat) (infos : List ThreadInfo) : SystemStats where
  elapsed := elapsed
  threadCount := threadCount
  threads := infos.take maxThreads

def text (stats : SystemStats) : String :=
  "\n\n".intercalate
    (("Elapsed time: " ++ toString stats.elapsed.secs.toNat ++ " s\nThread count: "
        ++ toString stats.threadCount)
      :: stats.threads.map ThreadInfo.text)

end SystemStats

end TickKernel
