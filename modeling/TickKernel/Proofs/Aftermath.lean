import TickKernel.Proofs.Moves

/-!
# What a step leaves behind

`Machine.Effect` says what a step makes of the threads, their table and the locks.
`Machine.Aftermath` says what it makes of the rest: the saved stack pointers, memory, the
hardware, the kernel that is ticked, the packets and the console.  Each of these is changed
by one or two kinds of step and left as it is by all others.
-/

namespace TickKernel

variable {P : Type}

/-! ## What changes with a step -/

def Step.pointersAfter : Step → Vector UInt64 maxThreads → Vector UInt64 maxThreads
  | .savePointer id pointer, pointers => pointers.set id pointer id.isLt
  | _, pointers => pointers

def Step.memoryAfter [Backend P] (cpu : P) : Step → Memory → Memory
  | .writeFrame creation stack, memory =>
      Backend.writeFirstFrame cpu memory stack creation.call
  | _, memory => memory

def Step.cpuAfter [Backend P] (kernel : Kernel P) : Step → P
  | .armTimer => (Backend.startTimer kernel.cpu kernel.config.tickPeriod).2
  | _ => kernel.cpu

def Step.tickTargetAfter (number : Nat) : Step → Option Nat → Option Nat
  | .routeTicks, target => some (target.getD number)
  | _, target => target

/-- The packets after a step of a thread, which made its latest call as `entered` tells. -/
def Step.packetsAfter (me : ThreadId) (entered : Option EntryCall) (packets : Array Packet) :
    Step → Array Packet
  | .pack _ body _ _ => packets.push { body }
  | .discard index => packets.modify index fun packet => { packet with drops := packet.drops + 1 }
  | .enter call =>
      if call.entry = closureRoutine then
        packets.modify call.argument.toNat fun packet =>
          { packet with takers := me :: packet.takers }
      else packets
  | .leaveBody =>
      match entered with
      | some call =>
          if call.entry = closureRoutine then
            packets.modify call.argument.toNat fun packet => { packet with returned := true }
          else packets
      | none => packets
  | _ => packets

/-- Steps that put another sink in the place of the installed one. -/
@[simp]
def Step.swapsSink : Step → Bool
  | .install _ | .remove => true
  | _ => false

def Step.consoleAfter : Step → Console → Console
  | .print piece, console => console.print piece
  | _, console => console

/-! ## A step and its aftermath -/

namespace Machine

variable [Backend P]

/-- What a step other than a switch makes of a kernel's data and of what all kernels share. -/
structure Aftermath (m : Machine P) (step : Step) (after : Machine P) : Prop where
  number : after.kernel.number = m.kernel.number
  config : after.kernel.config = m.kernel.config
  pointers : after.kernel.pointers = step.pointersAfter m.kernel.pointers
  memory : after.kernel.memory = step.memoryAfter m.kernel.cpu m.kernel.memory
  cpu : after.kernel.cpu = step.cpuAfter m.kernel
  tickTarget : after.shared.tickTarget =
    step.tickTargetAfter m.kernel.number m.shared.tickTarget
  packets : after.shared.packets =
    step.packetsAfter m.executing m.context.entered.head? m.shared.packets
  console : step.swapsSink = false → after.shared.console = step.consoleAfter m.shared.console

theorem aftermath_perform (m : Machine P) {step : Step} (h : step.isSwitch = false) :
    m.Aftermath step (m.perform step) := by
  cases step
  case switch => cases h
  all_goals
    simp only [perform, takeLock, freeLock, setTaken, enter, enroll, armTimer, leaveBody, finish,
      modifyMasking, modifyPacket, useIdentity, useCount, useChoice, useSnapshot, checkTarget,
      dispatch, pushAnswer, countTick, checkDeadline, pack, checkRoom, allocate, writeFrame,
      claimStart, routeTicks, tryAcquire, tryRelease, tryTake, giveBack, installSink, removeSink,
      savePointer]
    repeat' split
  -- only a call of a closure, and its return, have to be told from other calls
  all_goals
    constructor <;>
      first
      | rfl
      | exact fun _ => rfl
      | exact fun h => by cases h
      | simp [Step.packetsAfter, *]

theorem Stepped.aftermath {m after : Machine P} {step : Step} {rest pushed : List Step}
    (hstepped : m.Stepped step rest pushed after) : m.Aftermath step after := by
  have h := (m.setCode rest).aftermath_perform hstepped.stays
  rw [← hstepped.eq] at h
  exact { h with packets := by rw [h.packets, context_setCode]; rfl }

end Machine

end TickKernel
