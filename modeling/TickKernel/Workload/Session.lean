import TickKernel.Arena
import TickKernel.Host.Background
import TickKernel.Workload.Event

/-!
# Running a workload

A session plays the scripts of a workload on a machine.  It decides only what the
machine leaves open: which operation a thread in its own code asks for next, and
when the timer interrupts.  The timer interrupts the idle thread alone, between two
rounds of a blocking call that found nothing else to run, and only so often as the
workload allows; after that the idle thread is stuck.
-/

namespace TickKernel.Workload

/-- Where a thread is in its script. -/
structure Job where
  /-- Whether the script is a closure's. -/
  closure : Bool
  /-- Lines still to do, the one being done first. -/
  actions : List Action
  /-- Number of the first of them. -/
  index : Nat := 0
  /-- Whether an operation of the first line was asked for. -/
  busy : Bool := false
  /-- The operation to ask for again, and how often. -/
  again : Option (Request × Nat) := none

inductive Status where
  | running
  | done
  | stuck
  deriving DecidableEq, Repr

structure Session where
  workload : Workload
  machine : Machine Host
  /-- The kernel that was started first, which timer interrupts tick. -/
  background : Background
  jobs : Vector (Option Job) maxThreads
  arena : Arena
  idleTicks : Nat
  /-- The idle thread found nothing to run, and a tick is to come. -/
  tickDue : Bool
  /-- Events, newest first. -/
  log : List Event
  status : Status

namespace Session

/-- More steps than a signal through a kernel without threads takes. -/
def signalFuel : Nat := 1000

def begin (workload : Workload) : Session where
  workload := workload
  machine :=
    Machine.boot (Kernel.new 1 workload.config workload.policy {})
      { Shared.new workload.semaphores workload.mutexes
          { sinks := [{ capacity := none }], installed := some 0 } with
        tickTarget := Background.started.tickTarget }
  background := Background.started
  jobs := (Vector.replicate maxThreads none).set ThreadId.idle
    (some { closure := false, actions := workload.main })
  arena := {}
  idleTicks := workload.idleTicks
  tickDue := false
  log := []
  status := .running

def thread (s : Session) : ThreadId := s.machine.executing

def record (s : Session) (occurrence : Occurrence) : Session :=
  { s with log := ⟨s.thread, occurrence, .of s.machine⟩ :: s.log }

def setJob (s : Session) (job : Job) : Session :=
  { s with jobs := s.jobs.set s.thread (some job) }

def complete (s : Session) (job : Job) (result : Result) : Session :=
  match job.actions with
  | [] => s
  | action :: rest =>
      (s.record (.did job.index action result)).setJob
        { job with actions := rest, index := job.index + 1, busy := false, again := none }

def ask (s : Session) (job : Job) (request : Request) : Nat → Session
  | 0 => s.complete job .nothing
  | times + 1 =>
      { s.setJob { job with busy := true, again := some (request, times) } with
        machine := s.machine.call request }

/-- Ask for the creation of a thread, for which the arena answers the allocator's request. -/
def askForThread (s : Session) (job : Job) (index : Nat) : Session :=
  let plan := s.workload.plan index
  let total := plan.settings.stackSize + Backend.reserved s.machine.kernel.cpu
  let (block, arena) := s.arena.answer total
  { s with arena := arena }.ask job (plan.request index block) 1

/-- Signal through a kernel that has no threads and is given up afterwards. -/
def signalThroughPeer (s : Session) (job : Job) (semaphore : Nat) : Session :=
  let peer := Machine.boot (Kernel.new 2 Config.standard Policy.roundRobin {}) {}
  let (machine, peer) := s.machine.operateThrough peer (.signal semaphore) signalFuel
  { s with machine := machine }.complete job
    (.peer peer.kernel.table.count peer.kernel.table.current)

def tickFirstKernel (s : Session) (job : Job) : Session :=
  let after := s.background.tickFor s.machine.shared.tickTarget
  { s with background := after }.complete job (.ticks (after.ticks - s.background.ticks).toNat)

def forSlot (s : Session) (job : Job) (index : Nat) (request : ThreadId → Request) : Session :=
  match ThreadId.ofIndex? index with
  | none => s.complete job .outOfRange
  | some id => s.ask job (request id) 1

def beginAction (s : Session) (job : Job) : Action → Session
  | .spawn plan => s.askForThread job plan
  | .start => s.ask job .start 1
  | .tick times => s.ask job .tick times
  | .yield times => s.ask job .yield times
  | .sleep ticks => s.ask job (.sleep ticks) 1
  | .park => s.ask job .park 1
  | .lock mutex => s.ask job (.lock mutex) 1
  | .unlock mutex => s.ask job (.unlock mutex) 1
  | .wait semaphore => s.ask job (.wait semaphore) 1
  | .signal semaphore times => s.ask job (.signal semaphore) times
  | .signalHandoff semaphore => s.ask job (.signalHandoff semaphore) 1
  | .switchTo index => s.forSlot job index .switchTo
  | .select => s.ask job .selectNext 1
  | .table => s.ask job .selectNext 1
  | .info index => s.forSlot job index .info
  | .stats => s.ask job .stats 1
  | .report => s.ask job .report 1
  | .policy => s.complete job (.policy s.machine.kernel.policy.name)
  | .peerSignal semaphore => s.signalThroughPeer job semaphore
  | .elapsed => s.complete job (.span s.machine.kernel.ticks.elapsed)
  | .print text => s.ask job (.printLine text) 1
  | .console true => s.ask job (.install 0) 1
  | .console false => s.ask job .remove 1
  | .interrupts on => s.ask job (.setInterrupts on) 1
  | .firstKernelTick => s.tickFirstKernel job

/-- Whether the closure packed last was dropped without being run. -/
def lastClosureDropped (s : Session) : Bool :=
  s.machine.shared.packets.back?.any fun packet => packet.drops == 1 && packet.takers.isEmpty

def resultOf (s : Session) : Action → Reply → Result
  | .spawn _, .thread id => .created id
  | .spawn plan, .failed cause =>
      .refused cause (if (s.workload.plan plan).closure then some s.lastClosureDropped else none)
  | _, .failed cause => .refused cause none
  | .start, .done | .switchTo _, .done => .ok
  | .table, .thread id => .table s.machine.kernel.table id
  | .select, .thread id => .thread id
  | .info _, .info info => .info info
  | .stats, .stats stats => .stats stats
  | .console _, .sink old => .flag old.isSome
  | _, _ => .nothing

def answered (s : Session) (job : Job) (reply : Reply) : Session :=
  match job.again, job.actions with
  | some (request, times + 1), _ => s.ask job request (times + 1)
  | _, action :: _ => s.complete job (s.resultOf action reply)
  | _, [] => s

/-- A thread that just entered its routine begins the script of its plan. -/
def beginScript (s : Session) : Session :=
  let call := s.machine.context.entered.headD default
  if call.entry = closureRoutine then
    let body := s.machine.shared.packets[call.argument.toNat]?.elim 0 Packet.body
    (s.record (.begins none)).setJob
      { closure := true, actions := (s.workload.plan body).actions }
  else
    (s.record (.begins (some call.argument))).setJob
      { closure := false
        actions := (s.workload.plan (Plan.indexOfRoutine call.entry)).actions }

def endScript (s : Session) (job : Job) : Session :=
  if s.thread = ThreadId.idle then { s with status := .done }
  else
    let s := s.record .ends
    { s with machine := s.machine.call (if job.closure then .leave else .park) }

def play (s : Session) : Session :=
  match s.jobs[s.thread] with
  | none => s.beginScript
  | some job =>
      match job.busy, s.machine.context.answer, job.actions with
      | true, some reply, _ => s.answered job reply
      | _, _, [] => s.endScript job
      | _, _, action :: _ => s.beginAction job action

/--
Whether the next step finds the idle thread blocked with nothing else to run.  A
choice made while an interrupt is being served does not count.
-/
def findsNothing (s : Session) : Bool :=
  s.machine.nextStep? == some (.choose .dispatch)
    && s.thread == ThreadId.idle
    && s.machine.kernel.table.handsBack s.machine.kernel.choice
    && !s.machine.context.code.contains .resume

def stick (s : Session) : Session :=
  let s := { s with
    machine := s.machine.modifyMasking Masking.unwind
    status := .stuck }
  match s.jobs[s.thread] with
  | none => s
  | some job => s.complete job .stuck

/-- The timer interrupts the idle thread; its handler begins masked. -/
def takeTick (s : Session) : Session :=
  { s with
    machine := s.machine.interrupt
    tickDue := false }.record .idleTick

/-- The idle thread found nothing to run: a tick is to come, if there can be one. -/
def expectTick (s : Session) : Session :=
  if s.idleTicks = 0 || !s.machine.context.masking.unwind.enabled then s.stick
  else
    { s with
      machine := s.machine.exec
      idleTicks := s.idleTicks - 1
      tickDue := true }

def advance (s : Session) : Session :=
  if s.tickDue && s.thread == ThreadId.idle && s.machine.interruptsEnabled then s.takeTick
  else if s.machine.atUserLevel then s.play
  else if s.findsNothing then s.expectTick
  else { s with machine := s.machine.exec }

def runFor (s : Session) : Nat → Session
  | 0 => s
  | fuel + 1 => if s.status = .running then s.advance.runFor fuel else s

end Session

def run (workload : Workload) : Session :=
  (Session.begin workload).runFor workload.fuel

end TickKernel.Workload
