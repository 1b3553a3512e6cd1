import TickKernel.Failure

/-!
# Boards and their registers

Two single-core ARM boards, told apart by where the interrupt controller lies and
by how much register state a switch and an interrupt put on a stack.  Every access
to a device or a timer register is recorded in order.
-/

namespace TickKernel

inductive BoardModel where
  /-- Floating-point registers are saved by switches and interrupts. -/
  | pi
  | virt
  deriving DecidableEq, Repr, Inhabited

namespace BoardModel

def distributor : BoardModel → UInt64
  | pi => 0xFF841000
  | virt => 0x08000000

def processorInterface : BoardModel → UInt64
  | pi => 0xFF842000
  | virt => 0x08010000

/-- Ten callee-saved registers, frame pointer, resume address, and on `pi` eight more. -/
def switchFrameWords : BoardModel → Nat
  | pi => 20
  | virt => 12

def switchFrameBytes (model : BoardModel) : UInt64 :=
  8 * UInt64.ofNat model.switchFrameWords

def interruptFrameBytes : BoardModel → UInt64
  | pi => 592
  | virt => 192

def reservedBytes (model : BoardModel) : UInt64 :=
  model.interruptFrameBytes + model.switchFrameBytes

end BoardModel

/-- One access to a device or to a register of the tick timer. -/
inductive Access where
  | read (address : UInt64) (value : UInt32)
  | write (address : UInt64) (value : UInt32)
  | timerValue (value : UInt64)
  | timerControl (value : UInt64)
  /-- The exception vectors were installed. -/
  | vectors
  deriving DecidableEq, Repr

/-- Device memory, timer and mask register of a board. -/
structure Board where
  model : BoardModel
  /-- Device words by address. -/
  words : UInt64 → UInt32 := fun _ => 0
  /-- Frequency of the system counter. -/
  frequency : UInt64 := 0
  /-- Counts of the system counter between two ticks. -/
  interval : UInt64 := 1
  /-- The interrupt mask register. -/
  daif : UInt64 := 0
  /-- Accesses so far, oldest first. -/
  trace : List Access := []
  /-- Slots whose thread was suspended by a switch. -/
  suspended : List ThreadId := []

namespace Board

instance : Inhabited Board := ⟨{ model := .virt }⟩

def record (board : Board) (access : Access) : Board :=
  { board with trace := board.trace ++ [access] }

def poke (board : Board) (address : UInt64) (value : UInt32) : Board :=
  { board with words := fun at' => if at' = address then value else board.words at' }

def write (board : Board) (address : UInt64) (value : UInt32) : Board :=
  (board.poke address value).record (.write address value)

def read (board : Board) (address : UInt64) : UInt32 × Board :=
  (board.words address, board.record (.read address (board.words address)))

/-- The bit of the mask register that masks interrupts. -/
def maskBit : UInt64 := 0x80

def interruptsEnabled (board : Board) : Bool :=
  board.daif &&& maskBit == 0

def setInterrupts (board : Board) (enabled : Bool) : Board :=
  { board with
    daif := if enabled then board.daif &&& ~~~maskBit else board.daif ||| maskBit }

def clearTrace (board : Board) : Board :=
  { board with trace := [] }

@[simp]
theorem trace_write (board : Board) (address : UInt64) (value : UInt32) :
    (board.write address value).trace = board.trace ++ [.write address value] :=
  rfl

@[simp]
theorem trace_read (board : Board) (address : UInt64) :
    (board.read address).2.trace = board.trace ++ [.read address (board.words address)] :=
  rfl

end Board

end TickKernel
