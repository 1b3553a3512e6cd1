import TickKernel.Kernel.Machine

/-!
# Executing steps

What each elementary step does, and the three ways in which a machine goes on:
the executing thread does its next step, it asks for an operation, or it is
interrupted by the timer.
-/

namespace TickKernel.Machine

variable {P : Type} [Backend P]

def finish (m : Machine P) (reply : Reply) : Machine P :=
  m.modifyContext fun context => { context with answer := some reply }

/-- Return an answer that was read under `lock`, which goes before the guard. -/
def pushAnswer (m : Machine P) (lock : SpinLock) (reply : Reply) : Machine P :=
  m.push [.free lock, .unmask, .finish reply]

/--
Answer who the caller is.  The guard goes before the table lock, which was taken
inside the last expression of its scope.
-/
def useIdentity (m : Machine P) : IdentityUse → Machine P
  | .answer => m.push [.unmask, .free .table, .finish (.thread m.kernel.table.current)]
  | .acquire mutex =>
      m.push [.unmask, .free .table, .mask, .take (.mutex mutex),
        .tryAcquire mutex m.kernel.table.current]
  | .release mutex =>
      m.push [.unmask, .free .table, .mask, .take (.mutex mutex),
        .tryRelease mutex m.kernel.table.current]
  | .take semaphore =>
      m.push [.unmask, .free .table, .mask, .take (.semaphore semaphore),
        .tryTake semaphore m.kernel.table.current]

def useCount (m : Machine P) : CountUse → Machine P
  | .answer => m.push [.unmask, .free .table, .finish (.count m.kernel.table.count)]
  | .banner =>
      m.push ([.unmask, .free .table]
        ++ Code.printLine (Code.startLine m.kernel.table.count m.kernel.config.tickPeriod)
        ++ Code.reschedule ++ [.unmask, .setFlag true] ++ Code.done)

def useChoice (m : Machine P) : ChoiceUse → Machine P
  | .answer => (m.modifyKernel Kernel.consult).pushAnswer .table (.thread m.kernel.choice)
  | .dispatch =>
      (m.modifyKernel Kernel.consult).push
        ([.free .table, .unmask] ++ Code.switchTo m.kernel.choice)

def useSnapshot (m : Machine P) : SnapshotUse → Machine P
  | .answer => m.pushAnswer .table (.stats m.kernel.stats)
  | .print =>
      m.push ([.free .table, .unmask] ++ Code.printLine m.kernel.stats.text ++ Code.done)

def checkTarget (m : Machine P) (target : ThreadId) : Machine P :=
  if m.kernel.table.contains target then
    m.push ([.free .table] ++ Code.switchTo target ++ [.unmask] ++ Code.done)
  else m.pushAnswer .table (.failed (.scheduling (.noSuchThread target)))

/--
Enter a dispatch in the table.  The table lock is released before the switch, and
there is no switch when the current thread is dispatched.
-/
def dispatch (m : Machine P) (target : ThreadId) : Machine P :=
  let prev := m.kernel.table.current
  let m := m.modifyTable (·.dispatch target)
  if prev = target then m.push [.free .table, .unmask]
  else m.push [.free .table, .switch target prev, .unmask]

/-- The call in the switch frame to which a slot's saved stack pointer points. -/
def savedCall (m : Machine P) (id : ThreadId) : Option EntryCall :=
  Backend.callOfFrame m.kernel.cpu
    (m.kernel.memory.wordAt (m.kernel.pointers.get id))

/--
Pass the processor from slot `prev` to slot `next`.  A thread that was suspended
before goes on with its remaining steps; any other starts from its first frame.
-/
def switch (m : Machine P) (next prev : ThreadId) : Machine P :=
  let (suspended, cpu) := Backend.switch m.kernel.cpu next prev
  let call := m.savedCall next
  let m := { m.modifyKernel fun kernel => { kernel with cpu := cpu } with executing := next }
  if suspended then m
  else m.modifyContext fun _ => { code := (call.map launchCode).getD [] }

/-- Call the entry routine.  That of a closure takes the closure out of its packet. -/
def enter (m : Machine P) (call : EntryCall) : Machine P :=
  let entered := m.modifyContext fun context =>
    { context with entered := call :: context.entered }
  if call.entry = closureRoutine then
    entered.modifyPacket call.argument.toNat fun packet =>
      { packet with takers := m.executing :: packet.takers }
  else entered

def leaveBody (m : Machine P) : Machine P :=
  match m.context.entered.head? with
  | some call =>
      if call.entry = closureRoutine then
        m.modifyPacket call.argument.toNat fun packet => { packet with returned := true }
      else m
  | none => m

/-- Count a tick, then under the table lock do what is due, and reschedule. -/
def countTick (m : Machine P) : Machine P :=
  let ticks := m.kernel.ticks.increment
  let due := m.kernel.config.closesInterval ticks.ticks
  (m.modifyKernel fun kernel => { kernel with ticks := ticks }).push
    ([.take .table, .countDown] ++ (if due then [.closeInterval] else []) ++ [.free .table]
      ++ Code.reschedule ++ [.unmask])

/-- A sleep ends at its deadline; before that the caller sleeps what is left. -/
def checkDeadline (m : Machine P) (wakeAt : UInt64) : Machine P :=
  let now := m.kernel.ticks.ticks
  if wakeAt ≤ now then m.push (.unmask :: Code.done)
  else
    m.push ([.take .table, .doze (wakeAt - now), .free .table]
      ++ Code.reschedule ++ [.unmask, .retry (.until wakeAt)])

/-- Put a closure in a packet and create the thread that will run it. -/
def pack (m : Machine P) (name : String) (body : Nat) (stackSize : UInt64)
    (block : Option UInt64) : Machine P :=
  let packet := m.shared.packets.size
  (m.modifyShared fun shared => { shared with packets := shared.packets.push { body } }).push
    (Code.create
      { name, stackSize, block
        call := ⟨closureRoutine, UInt64.ofNat packet⟩
        packet := some packet })

def checkRoom (m : Machine P) (creation : Creation) : Machine P :=
  if m.kernel.table.isFull then
    m.push (Code.printLine (Code.refusalLine creation)
      ++ Code.refuse creation (.creation .tableFull))
  else m.push [.allocate creation]

def allocate (m : Machine P) (creation : Creation) : Machine P :=
  let reserved := Backend.reserved m.kernel.cpu
  if UInt64.size ≤ creation.stackSize.toNat + reserved.toNat then
    m.push (Code.refuse creation (.creation (.stackTooLarge creation.stackSize)))
  else
    match Stack.allocate (creation.stackSize + reserved) creation.block with
    | .error cause => m.push (Code.refuse creation (.memory cause))
    | .ok stack => m.push [.writeFrame creation stack]

def writeFrame (m : Machine P) (creation : Creation) (stack : Stack) : Machine P :=
  (m.modifyKernel fun kernel =>
    { kernel with
      memory := Backend.writeFirstFrame kernel.cpu kernel.memory stack creation.call }).push
    [.enroll creation stack]

def enroll (m : Machine P) (creation : Creation) (stack : Stack) : Machine P :=
  match m.kernel.table.insert
      (ControlBlock.created · creation.name creation.call.entry stack) with
  | none => m.push (Code.refuse creation (.creation .tableFull))
  | some (id, table) =>
      (m.modifyTable fun _ => table).push
        ([.savePointer id (Backend.firstPointer m.kernel.cpu stack)]
          ++ Code.printLine (Code.creationLine creation id stack)
          ++ [.free .table, .unmask, .finish (.thread id)])

def savePointer (m : Machine P) (id : ThreadId) (pointer : UInt64) : Machine P :=
  m.modifyKernel fun kernel =>
    { kernel with pointers := kernel.pointers.set id pointer id.isLt }

/-- A kernel is started once: the flag is tested and set in one step. -/
def claimStart (m : Machine P) : Machine P :=
  if m.kernel.started then m.push [.finish (.failed (.scheduling .alreadyStarted))]
  else (m.modifyKernel fun kernel => { kernel with started := true }).push [.mask, .armTimer]

/-- Start the tick timer.  If that fails the kernel counts as not started. -/
def armTimer (m : Machine P) : Machine P :=
  let (outcome, cpu) := Backend.startTimer m.kernel.cpu m.kernel.config.tickPeriod
  let m := m.modifyKernel fun kernel => { kernel with cpu := cpu }
  match outcome with
  | .error cause => m.push [.withdrawStart, .unmask, .finish (.failed (.timer cause))]
  | .ok () => m.push (.routeTicks :: Code.countThreads .banner)

/-- Timer interrupts go to the first kernel that got this far. -/
def routeTicks (m : Machine P) : Machine P :=
  m.modifyShared fun shared =>
    { shared with tickTarget := some (shared.tickTarget.getD m.kernel.number) }

/-- Try to acquire a mutex.  A mutex that does not exist is acquired at once. -/
def tryAcquire (m : Machine P) (index : Nat) (me : ThreadId) : Machine P :=
  let leave := [.free (.mutex index), .unmask, .unmask] ++ Code.done
  match m.shared.mutexes[index]? with
  | none => m.push leave
  | some mutex =>
      match mutex.acquire me with
      | .acquired after => (m.setMutex index after).push leave
      | .queued after =>
          (m.setMutex index after).push
            ([.free (.mutex index), .unmask] ++ Code.blockAndRetry (.ownership index))

/-- Try to release a mutex.  The heir is woken and gets the processor at once. -/
def tryRelease (m : Machine P) (index : Nat) (me : ThreadId) : Machine P :=
  match (m.shared.mutexes[index]?).map (·.release me) with
  | none | some .refused => m.push ([.free (.mutex index), .unmask, .unmask] ++ Code.done)
  | some (.passed heir after) =>
      (m.setMutex index after).push
        ([.free (.mutex index), .unmask]
          ++ (heir.map fun id => Code.wake id ++ Code.switchTo id).getD []
          ++ [.unmask] ++ Code.done)

/-- Try to take a unit.  A semaphore that does not exist has one for everybody. -/
def tryTake (m : Machine P) (index : Nat) (me : ThreadId) : Machine P :=
  let leave := [.free (.semaphore index), .unmask, .unmask] ++ Code.done
  match m.shared.semaphores[index]? with
  | none => m.push leave
  | some semaphore =>
      match semaphore.take me with
      | .taken after => (m.setSemaphore index after).push leave
      | .queued after =>
          (m.setSemaphore index after).push
            ([.free (.semaphore index), .unmask] ++ Code.blockAndRetry (.unit index))

def giveBack (m : Machine P) (index : Nat) (andSwitch : Bool) : Machine P :=
  match (m.shared.semaphores[index]?).map Semaphore.release with
  | none => m.push [.free (.semaphore index), .unmask]
  | some (woken, after) =>
      (m.setSemaphore index after).push
        ([.free (.semaphore index), .unmask]
          ++ (woken.map fun id =>
                Code.wake id ++ if andSwitch then Code.switchTo id else []).getD [])

def installSink (m : Machine P) (index : Nat) : Machine P :=
  let (old, console) := m.shared.console.install index
  (m.setConsole console).pushAnswer .console (.sink old)

def removeSink (m : Machine P) : Machine P :=
  let (old, console) := m.shared.console.remove
  (m.setConsole console).pushAnswer .console (.sink old)

def perform (m : Machine P) : Step → Machine P
  | .mask => m.modifyMasking Masking.acquire
  | .unmask => m.modifyMasking Masking.dropNewest
  | .take lock => m.takeLock lock
  | .free lock => m.freeLock lock
  | .setFlag enabled => m.modifyMasking (·.set enabled)
  | .finish reply => m.finish reply
  | .resume => m.modifyMasking (·.set true)
  | .enter call => m.enter call
  | .retry call => m.push (Code.attempt call)
  | .identify use => m.useIdentity use
  | .countThreads use => m.useCount use
  | .choose use => m.useChoice use
  | .checkTarget target => m.checkTarget target
  | .dispatch target => m.dispatch target
  | .switch next prev => m.switch next prev
  | .block => m.modifyTable (·.modifyCurrent ControlBlock.blocked)
  | .doze ticks => m.modifyTable (·.modifyCurrent (·.asleep ticks))
  | .wake id => m.modifyTable (·.wake id)
  | .describe id => m.pushAnswer .table (.info (m.kernel.info? id))
  | .snapshot use => m.useSnapshot use
  | .countTick => m.countTick
  | .countDown => m.modifyTable ThreadTable.countDown
  | .closeInterval => m.modifyTable ThreadTable.closeInterval
  | .setDeadline ticks => m.push [.retry (.until (m.kernel.ticks.ticks + ticks.toUInt64))]
  | .checkDeadline wakeAt => m.checkDeadline wakeAt
  | .pack name body stackSize block => m.pack name body stackSize block
  | .checkRoom creation => m.checkRoom creation
  | .allocate creation => m.allocate creation
  | .writeFrame creation stack => m.writeFrame creation stack
  | .enroll creation stack => m.enroll creation stack
  | .savePointer id pointer => m.savePointer id pointer
  | .discard packet => m.modifyPacket packet fun p => { p with drops := p.drops + 1 }
  | .leaveBody => m.leaveBody
  | .claimStart => m.claimStart
  | .armTimer => m.armTimer
  | .withdrawStart => m.modifyKernel fun kernel => { kernel with started := false }
  | .routeTicks => m.routeTicks
  | .tryAcquire mutex me => m.tryAcquire mutex me
  | .tryRelease mutex me => m.tryRelease mutex me
  | .tryTake semaphore me => m.tryTake semaphore me
  | .giveBack semaphore andSwitch => m.giveBack semaphore andSwitch
  | .inspect query => m.pushAnswer query.lock (m.answer query)
  | .print piece => m.setConsole (m.shared.console.print piece)
  | .install sink => m.installSink sink
  | .remove => m.removeSink

/-- Whether a step has to spin because its lock is taken. -/
def spins (m : Machine P) : Step → Bool
  | .take lock => m.isTaken lock
  | _ => false

/-- Execute the next step.  A thread that spins, or has no step to do, stays where it is. -/
def exec (m : Machine P) : Machine P :=
  match m.context.code with
  | [] => m
  | step :: rest => if m.spins step then m else (m.setCode rest).perform step

def call (m : Machine P) (request : Request) : Machine P :=
  m.modifyContext fun context => { context with code := request.code, answer := none }

def interrupt (m : Machine P) : Machine P :=
  (m.push interruptCode).modifyMasking (·.set false)

def execute (m : Machine P) : Nat → Machine P
  | 0 => m
  | fuel + 1 => if m.atUserLevel then m else m.exec.execute fuel

/-- The next step is taken off and done, unless it spins. -/
theorem exec_of_code (m : Machine P) {step : Step} {rest : List Step}
    (h : m.context.code = step :: rest) (free : m.spins step = false) :
    m.exec = (m.setCode rest).perform step := by
  simp [exec, h, free]

theorem exec_of_spins (m : Machine P) {step : Step} {rest : List Step}
    (h : m.context.code = step :: rest) (taken : m.spins step = true) : m.exec = m := by
  simp [exec, h, taken]

theorem execute_of_atUserLevel (m : Machine P) (h : m.atUserLevel = true) (fuel : Nat) :
    m.execute fuel = m := by
  cases fuel <;> simp [execute, h]

end TickKernel.Machine
