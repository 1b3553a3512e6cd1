import TickKernel.Backend
import TickKernel.Board.Controller

/-!
# A board as a processor

The tick timer counts the system counter down and raises an interrupt; rearming it
also withdraws the interrupt.  The interrupt entry rearms and completes before the
kernel's tick runs, because that tick may switch to another thread.
-/

namespace TickKernel.Board

/-- Program the next tick one interval from now, and enable the timer. -/
def rearm (board : Board) : Board :=
  (board.record (.timerValue board.interval)).record (.timerControl 1)

def countsPerTick (frequency : UInt64) (period : UInt32) : UInt64 :=
  frequency * period.toUInt64 / 1000000

/--
Start the tick.  It needs a controller and a running counter, and a period that is
at least one count and fits the timer's field.
-/
def startTimer (board : Board) (period : UInt32) : Except TimerFailure Unit × Board :=
  match (board.record .vectors).startController with
  | (false, board) => (.error .notAvailable, board)
  | (true, board) =>
      if board.frequency = 0 then (.error .notAvailable, board)
      else
        let interval := countsPerTick board.frequency period
        if interval = 0 ∨ 0xFFFFFFFF < interval then (.error (.invalidPeriod period), board)
        else (.ok (), { board with interval := interval }.rearm)

/--
Serve an interrupt up to the point where the kernel takes over, and tell whether
the kernel's tick is due.
-/
def serveInterrupt (board : Board) : Bool × Board :=
  let (interrupt, board) := board.acknowledge
  if interrupt = spuriousInterrupt then (false, board)
  else if interrupt = timerInterrupt then (true, board.rearm.complete interrupt)
  else (false, board.complete interrupt)

def firstFrame (model : BoardModel) (call : EntryCall) : List UInt64 :=
  [call.entry, call.argument, 0, 0, 0, 0, 0, 0, 0, 0, 0, startRoutine]
    ++ List.replicate (model.switchFrameWords - 12) 0

def framePointerWord : Nat := 10

def resumeWord : Nat := 11

instance : Backend Board where
  reserved board := board.model.reservedBytes
  firstFrame board call := firstFrame board.model call
  callOfFrame _ word := if word resumeWord = startRoutine then some ⟨word 0, word 1⟩ else none
  startTimer board period := board.startTimer period
  switch board next prev :=
    (board.suspended.contains next,
      { board with suspended := if board.suspended.contains prev then board.suspended
                                else prev :: board.suspended })
  adopt own seen := { seen with suspended := own.suspended }

@[simp]
theorem frameBytes_board (board : Board) :
    Backend.frameBytes board = board.model.switchFrameBytes := by
  cases h : board.model <;>
    simp [Backend.frameBytes, Backend.firstFrame, firstFrame, h, BoardModel.switchFrameBytes,
      BoardModel.switchFrameWords]

end TickKernel.Board
