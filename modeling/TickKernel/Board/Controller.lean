import TickKernel.Board.Registers

/-!
# The interrupt controller

Just enough of a two-part controller to route the timer interrupt to the only
core: the distributor is reset to everything disabled, the processor interface is
opened to all priorities, and single interrupts are enabled, acknowledged and
completed.
-/

namespace TickKernel.Board

def timerInterrupt : UInt32 := 30

/-- What is acknowledged when nothing is pending. -/
def spuriousInterrupt : UInt32 := 1023

def timerPriority : UInt8 := 0x80

/-- Offsets of the distributor's registers. -/
inductive DistributorRegister where
  | control
  | kind
  | setEnable
  | clearEnable
  | clearPending
  | priority

def DistributorRegister.offset : DistributorRegister → UInt64
  | control => 0x000
  | kind => 0x004
  | setEnable => 0x100
  | clearEnable => 0x180
  | clearPending => 0x280
  | priority => 0x400

/-- Offsets of the processor interface's registers. -/
inductive InterfaceRegister where
  | control
  | priorityMask
  | binaryPoint
  | acknowledge
  | complete

def InterfaceRegister.offset : InterfaceRegister → UInt64
  | control => 0x000
  | priorityMask => 0x004
  | binaryPoint => 0x008
  | acknowledge => 0x00C
  | complete => 0x010

def distributorAddress (board : Board) (register : DistributorRegister) (byte : UInt64) : UInt64 :=
  board.model.distributor + register.offset + byte

def interfaceAddress (board : Board) (register : InterfaceRegister) : UInt64 :=
  board.model.processorInterface + register.offset

/-- Words in a bank of one bit per interrupt, by what the distributor says of itself. -/
def bankWords (kind : UInt32) : Nat :=
  (kind &&& 0x1F).toNat + 1

def allOnes : UInt32 := 0xFFFFFFFF

def clearBanks (board : Board) (count : Nat) : Board :=
  (List.range count).foldl
    (fun board word =>
      let byte := 4 * UInt64.ofNat word
      (board.write (board.distributorAddress .clearEnable byte) allOnes).write
        (board.distributorAddress .clearPending byte) allOnes)
    board

def lowerPriorities (board : Board) (count : Nat) : Board :=
  (List.range count).foldl
    (fun board word =>
      board.write (board.distributorAddress .priority (4 * UInt64.ofNat word)) allOnes)
    board

/--
Reset the controller.  A distributor whose kind reads as no bits or as all bits is
not there, and then nothing is written.
-/
def resetController (board : Board) : Bool × Board :=
  let (kind, board) := board.read (board.distributorAddress .kind 0)
  if kind = allOnes ∨ kind = 0 then (false, board)
  else
    let words := bankWords kind
    let board := board.write (board.distributorAddress .control 0) 0
    let board := (board.clearBanks words).lowerPriorities (words * 8)
    let board := board.write (board.distributorAddress .control 0) 1
    let board := board.write (board.interfaceAddress .priorityMask) 0xFF
    let board := board.write (board.interfaceAddress .binaryPoint) 0
    (true, board.write (board.interfaceAddress .control) 1)

/-- A priority word with the byte of one interrupt replaced. -/
def withPriority (word : UInt32) (interrupt : UInt32) (priority : UInt8) : UInt32 :=
  let shift := (interrupt &&& 3) * 8
  (word &&& ~~~(0xFF <<< shift)) ||| (priority.toUInt32 <<< shift)

def enableInterrupt (board : Board) (interrupt : UInt32) (priority : UInt8) : Board :=
  let index := interrupt.toUInt64
  let address := board.distributorAddress .priority (index &&& ~~~3)
  let (word, board) := board.read address
  let board := board.write address (withPriority word interrupt priority)
  board.write (board.distributorAddress .setEnable (index / 32 * 4)) (1 <<< (interrupt % 32))

/-- Reset the controller and enable the timer interrupt, if there is a controller. -/
def startController (board : Board) : Bool × Board :=
  match board.resetController with
  | (false, board) => (false, board)
  | (true, board) => (true, board.enableInterrupt timerInterrupt timerPriority)

def acknowledge (board : Board) : UInt32 × Board :=
  let (value, board) := board.read (board.interfaceAddress .acknowledge)
  (value &&& 0x3FF, board)

def complete (board : Board) (interrupt : UInt32) : Board :=
  board.write (board.interfaceAddress .complete) interrupt

end TickKernel.Board
