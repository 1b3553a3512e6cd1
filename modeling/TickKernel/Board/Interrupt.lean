import TickKernel.Board.Processor
import TickKernel.Kernel.Exec

/-!
# Interrupts on a board

The interrupt entry deals with the controller first, and only then hands a due tick
to the kernel.  The tick may switch to another thread; what is left of the entry is
done when the interrupted thread goes on.
-/

namespace TickKernel.Board

/-- The machine after the interrupt entry dealt with the controller, and whether a tick is due. -/
def enterInterrupt (m : Machine Board) : Bool × Machine Board :=
  let (due, board) := m.kernel.cpu.serveInterrupt
  (due, m.modifyKernel fun kernel => { kernel with cpu := board })

/-- An interrupt of the executing thread.  A due tick goes to the kernel that was started first. -/
def deliver (m : Machine Board) : Machine Board :=
  let (due, m) := enterInterrupt m
  if due && m.shared.tickTarget == some m.kernel.number then m.interrupt else m

end TickKernel.Board
