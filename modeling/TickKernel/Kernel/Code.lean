import TickKernel.Kernel.Step

/-!
# The code of the operations

The steps of every operation, in the order in which they happen.  A guard or a
lock is released where its scope ends: what is declared later goes first, except
that a lock taken inside the last expression of a scope outlives the scope's guard.
-/

namespace TickKernel

/-- Address of the entry routine of every thread that runs a closure. -/
def closureRoutine : UInt64 := 0x2000

namespace Code

def print (piece : String) : List Step :=
  [.mask, .take .console, .print piece, .free .console, .unmask]

/-- Print a line: the text and the line break are masked separately. -/
def printLine (text : String) : List Step :=
  print text ++ print "\n"

def identify (use : IdentityUse) : List Step :=
  [.mask, .take .table, .identify use]

def countThreads (use : CountUse) : List Step :=
  [.mask, .take .table, .countThreads use]

def choose (use : ChoiceUse) : List Step :=
  [.mask, .take .table, .choose use]

def reschedule : List Step :=
  choose .dispatch

def switchTo (target : ThreadId) : List Step :=
  [.mask, .take .table, .dispatch target]

def block : List Step :=
  [.take .table, .block, .free .table]

/-- Make a waiting thread ready.  The guard goes before the lock. -/
def wake (id : ThreadId) : List Step :=
  [.mask, .take .table, .wake id, .unmask, .free .table]

def tick : List Step :=
  [.mask, .countTick]

def giveBack (semaphore : Nat) (andSwitch : Bool) : List Step :=
  [.mask, .take (.semaphore semaphore), .giveBack semaphore andSwitch]

/-- One round of a blocking call's loop. -/
def attempt : Blocking → List Step
  | .until wakeAt => [.mask, .checkDeadline wakeAt]
  | .ownership mutex => .mask :: identify (.acquire mutex)
  | .unit semaphore => .mask :: identify (.take semaphore)
  | .forever => .mask :: (block ++ reschedule ++ [.unmask, .retry .forever])

/-- Having found that it must wait, a blocking call reschedules and looks again. -/
def blockAndRetry (call : Blocking) : List Step :=
  block ++ reschedule ++ [.unmask, .retry call]

def done : List Step :=
  [.finish .done]

def create (creation : Creation) : List Step :=
  [.mask, .take .table, .checkRoom creation]

def refuse (creation : Creation) (cause : Failure) : List Step :=
  [.free .table, .unmask] ++ (creation.packet.map Step.discard).toList
    ++ [.finish (.failed cause)]

def refusalLine (creation : Creation) : String :=
  "[kernel] thread table full, '" ++ creation.name ++ "' not created"

def creationLine (creation : Creation) (id : ThreadId) (stack : Stack) : String :=
  "[kernel] created thread " ++ toString id.val ++ " '" ++ creation.name ++ "' ("
    ++ toString stack.size.toNat ++ " byte stack)"

def startLine (count : Nat) (period : UInt32) : String :=
  "[kernel] starting " ++ toString count ++ " thread(s), tick every "
    ++ toString period.toNat ++ " us"

end Code

def Request.code : Request → List Step
  | create name call stackSize block =>
      Code.create { name, call, stackSize, block, packet := none }
  | spawn name body stackSize block => [.pack name body stackSize block]
  | start => [.claimStart]
  | currentId => Code.identify .answer
  | threadCount => Code.countThreads .answer
  | selectNext => Code.choose .answer
  | switchTo target => [.mask, .take .table, .checkTarget target]
  | tick => Code.tick ++ Code.done
  | sleep ticks => if ticks = 0 then Code.done else [.setDeadline ticks]
  | yield => .mask :: (Code.reschedule ++ [.unmask] ++ Code.done)
  | park => [.retry .forever]
  | leave => [.leaveBody, .retry .forever]
  | info id => [.mask, .take .table, .describe id]
  | stats => [.mask, .take .table, .snapshot .answer]
  | report => [.mask, .take .table, .snapshot .print]
  | lock mutex => [.retry (.ownership mutex)]
  | unlock mutex => .mask :: Code.identify (.release mutex)
  | wait semaphore => [.retry (.unit semaphore)]
  | signal semaphore =>
      .mask :: (Code.giveBack semaphore false ++ [.unmask] ++ Code.done)
  | signalHandoff semaphore =>
      .mask :: (Code.giveBack semaphore true ++ [.unmask] ++ Code.done)
  | inspect query => [.mask, .take query.lock, .inspect query]
  | print piece => Code.print piece ++ Code.done
  | printLine text => Code.printLine text ++ Code.done
  | install sink => [.mask, .take .console, .install sink]
  | remove => [.mask, .take .console, .remove]
  | setInterrupts enabled => .setFlag enabled :: Code.done

def interruptCode : List Step :=
  Code.tick ++ [.resume]

/-- The steps of a new thread before its entry routine. -/
def launchCode (call : EntryCall) : List Step :=
  [.setFlag true, .enter call]

end TickKernel
