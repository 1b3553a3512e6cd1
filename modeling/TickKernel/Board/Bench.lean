import TickKernel.Arena
import TickKernel.Board.Interrupt
import TickKernel.Host.Background

/-!
# A board on the bench

A board with a new kernel on it, taken through single actions: device words are
set by hand, the drivers are called one by one, and the kernel is asked for what
needs no switch to another thread.  After each action the accesses that it made
are looked at.
-/

namespace TickKernel.Board

/-- One thing done to a board on the bench. -/
inductive BenchAction where
  | setFrequency (frequency : UInt64)
  | setMaskRegister (value : UInt64)
  /-- Set a distributor word by its offset. -/
  | setDistributor (offset : UInt64) (value : UInt32)
  /-- Set the word that acknowledging reads. -/
  | setAcknowledge (value : UInt32)
  | startController
  | resetController
  | enableInterrupt (interrupt : UInt32) (priority : UInt8)
  | acknowledge
  | complete (interrupt : UInt32)
  | startTimer (period : UInt32)
  | rearm
  | setInterrupts (enabled : Bool)
  /-- Acquire an interrupt guard. -/
  | acquire
  /-- Drop the newest guard. -/
  | release
  /-- An interrupt is raised and served. -/
  | interrupt
  | prepareStack (size argument : UInt64)
  | constants
  | create (name : String) (stackSize : UInt64)
  | info (id : ThreadId)
  | start
  | tick
  deriving DecidableEq, Repr

structure PreparedStack where
  stack : Stack
  pointer : UInt64
  /-- Words of the frame, from the stack pointer upwards. -/
  frame : List UInt64
  deriving DecidableEq, Repr

inductive BenchResult where
  | nothing
  | flag (value : Bool)
  | number (value : UInt64)
  | timer (outcome : Except TimerFailure Unit)
  /-- The size and the reserved frames exceed the address space. -/
  | tooLarge
  | stack (outcome : Except MemoryFailure PreparedStack)
  | constants (values : List UInt64)
  | created (id : ThreadId)
  | refused (cause : Failure)
  | info (info : Option ThreadInfo)
  | started (refusal : Option Failure) (flag : Bool)

/-- A board, the kernel on it, and the kernel that timer interrupts tick. -/
structure Bench where
  machine : Machine Board
  background : Background
  arena : Arena

namespace Bench

def routine : UInt64 := 0x80000

/-- Steps allowed for an operation that does not switch. -/
def operationFuel : Nat := 4000

def switchOn (model : BoardModel) (period : UInt32) : Bench where
  machine :=
    Machine.boot
      (Kernel.new 1 (Config.standard.withTickPeriod period) Policy.roundRobin { model := model })
      { tickTarget := Background.started.tickTarget }
  background := Background.started
  arena := {}

def board (bench : Bench) : Board :=
  bench.machine.kernel.cpu

def setBoard (bench : Bench) (board : Board) : Bench :=
  { bench with machine := bench.machine.modifyKernel fun kernel => { kernel with cpu := board } }

/-- The interrupt flag of the executing thread is the mask bit of the register. -/
def syncRegister (bench : Bench) : Bench :=
  bench.setBoard (bench.board.setInterrupts bench.machine.interruptsEnabled)

/-- Change the flag or the guards, and the register with them. -/
def modifyMasking (bench : Bench) (change : Masking → Masking) : Bench :=
  { bench with machine := bench.machine.modifyMasking change }.syncRegister

/-- Carry out an operation of the kernel, which answers at once. -/
def ask (bench : Bench) (request : Request) : Reply × Bench :=
  let machine := (bench.machine.call request).execute operationFuel
  (machine.context.answer.getD .done, { bench with machine := machine }.syncRegister)

def prepareStack (bench : Bench) (size argument : UInt64) : BenchResult :=
  let board := bench.board
  let total := size + Backend.reserved board
  if total < size then .tooLarge
  else
    .stack ((Stack.allocate total (bench.arena.answer total).1).map fun stack =>
      let pointer := Backend.firstPointer board stack
      let memory :=
        Backend.writeFirstFrame board Memory.blank stack ⟨routine, argument⟩
      { stack, pointer
        frame := (List.range board.model.switchFrameWords).map (memory.wordAt pointer) })

/-- An interrupt is served; a due tick is the first kernel's, which is not on this board. -/
def serve (bench : Bench) : BenchResult × Bench :=
  let (due, machine) := enterInterrupt bench.machine
  let after :=
    if due then bench.background.tickFor machine.shared.tickTarget else bench.background
  (.number (after.ticks - bench.background.ticks),
    { bench with machine := machine, background := after })

def act (bench : Bench) : BenchAction → BenchResult × Bench
  | .setFrequency frequency =>
      (.nothing, bench.setBoard { bench.board with frequency := frequency })
  | .setMaskRegister value =>
      let board := { bench.board with daif := value }
      (.nothing, (bench.setBoard board).modifyMasking (·.set board.interruptsEnabled))
  | .setDistributor offset value =>
      (.nothing, bench.setBoard (bench.board.poke (bench.board.model.distributor + offset) value))
  | .setAcknowledge value =>
      (.nothing, bench.setBoard
        (bench.board.poke (bench.board.interfaceAddress .acknowledge) value))
  | .startController =>
      let (there, board) := bench.board.startController
      (.flag there, bench.setBoard board)
  | .resetController =>
      let (there, board) := bench.board.resetController
      (.flag there, bench.setBoard board)
  | .enableInterrupt interrupt priority =>
      (.nothing, bench.setBoard (bench.board.enableInterrupt interrupt priority))
  | .acknowledge =>
      let (interrupt, board) := bench.board.acknowledge
      (.number interrupt.toUInt64, bench.setBoard board)
  | .complete interrupt => (.nothing, bench.setBoard (bench.board.complete interrupt))
  | .startTimer period =>
      let (outcome, board) := bench.board.startTimer period
      (.timer outcome, bench.setBoard board)
  | .rearm => (.nothing, bench.setBoard bench.board.rearm)
  | .setInterrupts enabled => (.nothing, bench.modifyMasking (·.set enabled))
  | .acquire => (.nothing, bench.modifyMasking Masking.acquire)
  | .release => (.nothing, bench.modifyMasking Masking.dropNewest)
  | .interrupt => bench.serve
  | .prepareStack size argument => (bench.prepareStack size argument, bench)
  | .constants =>
      let model := bench.board.model
      (.constants [model.reservedBytes, model.switchFrameBytes, model.interruptFrameBytes,
        timerInterrupt.toUInt64, spuriousInterrupt.toUInt64], bench)
  | .create name stackSize =>
      let (block, arena) := bench.arena.answer (stackSize + Backend.reserved bench.board)
      match { bench with arena := arena }.ask (.create name ⟨routine, 0⟩ stackSize block) with
      | (.thread id, bench) => (.created id, bench)
      | (.failed cause, bench) => (.refused cause, bench)
      | (_, bench) => (.nothing, bench)
  | .info id =>
      match bench.ask (.info id) with
      | (.info info, bench) => (.info info, bench)
      | (_, bench) => (.nothing, bench)
  | .start =>
      match bench.ask .start with
      | (.failed cause, bench) =>
          (.started (some cause) bench.machine.kernel.started, bench)
      | (_, bench) => (.started none bench.machine.kernel.started, bench)
  | .tick =>
      let (_, bench) := bench.ask .tick
      (.number bench.machine.kernel.ticks.ticks, bench)

/-- What one action did: its result, its accesses in order, and how the flag stands after it. -/
structure Observation where
  result : BenchResult
  accesses : List Access
  interrupts : Bool
  maskRegister : UInt64

def observe (bench : Bench) (action : BenchAction) : Observation × Bench :=
  let (result, after) := (bench.setBoard bench.board.clearTrace).act action
  ({ result
     accesses := after.board.trace
     interrupts := after.board.interruptsEnabled
     maskRegister := after.board.daif }, after)

def observeAll (bench : Bench) : List BenchAction → List Observation
  | [] => []
  | action :: rest =>
      let (seen, after) := bench.observe action
      seen :: after.observeAll rest

end Bench

end TickKernel.Board
