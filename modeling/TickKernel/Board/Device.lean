import TickKernel.Board.Controller

/-!
# What the devices make of the accesses

The interrupt controller and the timer as they answer to recorded accesses.  In a
bank with one bit per interrupt a write acts on the bits that it sets and leaves
the others alone; a priority register holds what is written.  The timer reads its
value as a signed offset of 32 bits from the running count.
-/

namespace TickKernel.Board

/-- State of the interrupt controller, interrupts by number. -/
structure ControllerState where
  /-- Whether the distributor forwards interrupts. -/
  forwarding : Bool
  enabled : Nat → Bool
  pending : Nat → Bool
  priority : Nat → UInt8
  /-- Whether the processor interface passes interrupts on. -/
  passing : Bool
  /-- Interrupts of this priority and less urgent ones are held back. -/
  priorityMask : UInt32

namespace ControllerState

def actsOn (word : Nat) (value : UInt32) (interrupt : Nat) : Bool :=
  interrupt / 32 == word && value.toNat.testBit (interrupt % 32)

def priorityByte (value : UInt32) (interrupt : Nat) : UInt8 :=
  (value >>> UInt32.ofNat (interrupt % 4 * 8)).toUInt8

def wordInBank (first bytes offset : Nat) : Option Nat :=
  if first ≤ offset ∧ offset < first + bytes then some ((offset - first) / 4) else none

def bitBankBytes : Nat := 0x80

def priorityBankBytes : Nat := 0x400

def receiveDistributor (state : ControllerState) (offset : Nat) (value : UInt32) :
    ControllerState :=
  let place (register : DistributorRegister) (bytes : Nat) :=
    wordInBank register.offset.toNat bytes offset
  if offset = DistributorRegister.control.offset.toNat then
    { state with forwarding := value &&& 1 == 1 }
  else
    match place .setEnable bitBankBytes, place .clearEnable bitBankBytes,
      place .clearPending bitBankBytes, place .priority priorityBankBytes with
    | some word, _, _, _ =>
        { state with enabled := fun i => state.enabled i || actsOn word value i }
    | _, some word, _, _ =>
        { state with enabled := fun i => state.enabled i && !actsOn word value i }
    | _, _, some word, _ =>
        { state with pending := fun i => state.pending i && !actsOn word value i }
    | _, _, _, some word =>
        { state with
          priority := fun i => if i / 4 = word then priorityByte value i else state.priority i }
    | none, none, none, none => state

def receiveInterface (state : ControllerState) (offset : UInt64) (value : UInt32) :
    ControllerState :=
  if offset = InterfaceRegister.control.offset then { state with passing := value &&& 1 == 1 }
  else if offset = InterfaceRegister.priorityMask.offset then { state with priorityMask := value }
  else state

/-- Bytes of the distributor's address space, and of the processor interface's. -/
def regionBytes : UInt64 := 0x1000

def receive (model : BoardModel) (state : ControllerState) : Access → ControllerState
  | .write address value =>
      if address - model.distributor < regionBytes then
        state.receiveDistributor (address - model.distributor).toNat value
      else if address - model.processorInterface < regionBytes then
        state.receiveInterface (address - model.processorInterface) value
      else state
  | .read .. | .timerValue _ | .timerControl _ | .vectors => state

def receiveAll (model : BoardModel) (state : ControllerState) (accesses : List Access) :
    ControllerState :=
  accesses.foldl (receive model) state

@[simp]
theorem receiveAll_nil (model : BoardModel) (state : ControllerState) :
    state.receiveAll model [] = state :=
  rfl

theorem receiveAll_append (model : BoardModel) (state : ControllerState)
    (first second : List Access) :
    state.receiveAll model (first ++ second) =
      (state.receiveAll model first).receiveAll model second :=
  List.foldl_append

end ControllerState

/-- Counts ahead at which a timer value makes the timer fire. -/
def countsAhead (value : UInt64) : Int :=
  value.toUInt32.toInt32.toInt

end TickKernel.Board
