import TickKernel.Kernel.Run

/-!
# What a step can do

A step changes the thread that executes it, the kernel and what is shared; every
other thread stands still, except that a switch passes the processor on.  `Expands`
lists the steps that a step may put in front of the remaining ones, with what was
read from the state written into them, and `Effect` says what becomes of the rest.
Nothing after this module looks into the definition of a step again, the attempts
on synchronization objects and the switch excepted.
-/

namespace TickKernel

namespace Step

def word : Step → UInt64
  | .doze ticks => ticks
  | .setDeadline ticks => ticks.toUInt64
  | .checkDeadline wakeAt => wakeAt
  | .savePointer _ pointer => pointer
  | _ => 0

-- Which step a step is shows in the word that it carries.  Decided by trying all words,
-- as for any finite type, a match on steps would never be compiled.
instance (step : Step) : Decidable (∀ ticks, step ≠ .doze ticks) :=
  decidable_of_iff (step ≠ .doze step.word) ⟨fun h _ heq => h (heq ▸ rfl), fun h => h _⟩

instance (step : Step) : Decidable (∀ ticks, step ≠ .setDeadline ticks) :=
  decidable_of_iff (step ≠ .setDeadline step.word.toUInt32)
    ⟨fun h ticks heq => h (heq ▸ congrArg setDeadline ticks.toUInt32_toUInt64.symm), fun h => h _⟩

instance (step : Step) : Decidable (∀ wakeAt, step ≠ .checkDeadline wakeAt) :=
  decidable_of_iff (step ≠ .checkDeadline step.word) ⟨fun h _ heq => h (heq ▸ rfl), fun h => h _⟩

instance (step : Step) (id : ThreadId) : Decidable (∀ pointer, step ≠ .savePointer id pointer) :=
  decidable_of_iff (step ≠ .savePointer id step.word) ⟨fun h _ heq => h (heq ▸ rfl), fun h => h _⟩

end Step

/-- A switch is the only step after which another thread executes. -/
def Step.isSwitch : Step → Bool
  | .switch _ _ => true
  | _ => false

theorem Step.eq_switch {step : Step} (h : step.isSwitch = true) :
    ∃ next prev, step = .switch next prev := by
  unfold isSwitch at h
  split at h
  next next prev => exact ⟨next, prev, rfl⟩
  next => cases h

/-- Steps that put nothing in front of the remaining ones. -/
def Step.isPlain : Step → Bool
  | .mask | .unmask | .take _ | .free _ | .setFlag _ | .finish _ | .resume | .enter _
  | .block | .doze _ | .wake _ | .countDown | .closeInterval | .savePointer _ _
  | .discard _ | .leaveBody | .withdrawStart | .routeTicks | .print _ => true
  | _ => false

/-- Questions that are answered under a lock, which goes before the guard. -/
def Step.asksUnder : Step → Option SpinLock
  | .choose .answer | .checkTarget _ | .describe _ | .snapshot .answer => some .table
  | .inspect query => some query.lock
  | .install _ | .remove => some .console
  | _ => none

def Step.maskingAfter : Step → Masking → Masking
  | .mask, masking => masking.acquire
  | .unmask, masking => masking.dropNewest
  | .setFlag enabled, masking => masking.set enabled
  | .resume, masking => masking.set true
  | _, masking => masking

def Step.heldAfter : Step → List SpinLock → List SpinLock
  | .take lock, held => lock :: held
  | .free lock, held => held.erase lock
  | _, held => held

def Step.answerAfter : Step → Option Reply → Option Reply
  | .finish reply, _ => some reply
  | _, answer => answer

def Step.tableAfter : Step → ThreadTable → ThreadTable
  | .dispatch target, table => table.dispatch target
  | .block, table => table.modifyCurrent ControlBlock.blocked
  | .doze ticks, table => table.modifyCurrent (·.asleep ticks)
  | .wake id, table => table.wake id
  | .countDown, table => table.countDown
  | .closeInterval, table => table.closeInterval
  | .enroll creation stack, table =>
      ((table.insert
        (ControlBlock.created · creation.name creation.call.entry stack)).map Prod.snd).getD table
  | _, table => table

def Step.ticksAfter : Step → TickCounter → TickCounter
  | .countTick, ticks => ticks.increment
  | _, ticks => ticks

def Step.tableTakenAfter : Step → Bool → Bool
  | .take .table, _ => true
  | .free .table, _ => false
  | _, taken => taken

def Step.takenAfter : Step → List SpinLock → List SpinLock
  | .take .table, taken | .free .table, taken => taken
  | .take lock, taken => lock :: taken
  | .free lock, taken => taken.erase lock
  | _, taken => taken

def Step.asksMutex : Step → Bool
  | .tryAcquire _ _ | .tryRelease _ _ => true
  | _ => false

def Step.asksSemaphore : Step → Bool
  | .tryTake _ _ | .giveBack _ _ => true
  | _ => false

/-- The steps that a step may put in front of the remaining ones. -/
inductive Kernel.Expands {P : Type} (kernel : Kernel P) : Step → List Step → Prop where
  | nothing {step : Step} : step.isPlain = true → Expands kernel step []
  | answer {step : Step} {lock : SpinLock} (reply : Reply) :
      step.asksUnder = some lock → Expands kernel step [.free lock, .unmask, .finish reply]
  -- who the caller is
  | identity :
      Expands kernel (.identify .answer)
        [.unmask, .free .table, .finish (.thread kernel.table.current)]
  | acquire (mutex : Nat) :
      Expands kernel (.identify (.acquire mutex))
        [.unmask, .free .table, .mask, .take (.mutex mutex),
          .tryAcquire mutex kernel.table.current]
  | release (mutex : Nat) :
      Expands kernel (.identify (.release mutex))
        [.unmask, .free .table, .mask, .take (.mutex mutex),
          .tryRelease mutex kernel.table.current]
  | take (semaphore : Nat) :
      Expands kernel (.identify (.take semaphore))
        [.unmask, .free .table, .mask, .take (.semaphore semaphore),
          .tryTake semaphore kernel.table.current]
  -- the thread table
  | count (value : Nat) :
      Expands kernel (.countThreads .answer) [.unmask, .free .table, .finish (.count value)]
  | banner (text : String) :
      Expands kernel (.countThreads .banner)
        ([.unmask, .free .table] ++ Code.printLine text ++ Code.reschedule
          ++ [.unmask, .setFlag true] ++ Code.done)
  | choice :
      Expands kernel (.choose .dispatch) ([.free .table, .unmask] ++ Code.switchTo kernel.choice)
  | report (text : String) :
      Expands kernel (.snapshot .print)
        ([.free .table, .unmask] ++ Code.printLine text ++ Code.done)
  | target {target : ThreadId} : kernel.table.contains target = true →
      Expands kernel (.checkTarget target)
        ([.free .table] ++ Code.switchTo target ++ [.unmask] ++ Code.done)
  | stay : Expands kernel (.dispatch kernel.table.current) [.free .table, .unmask]
  | leave {target : ThreadId} : kernel.table.current ≠ target →
      Expands kernel (.dispatch target)
        [.free .table, .switch target kernel.table.current, .unmask]
  -- time
  | tick {due : List Step} : due = [] ∨ due = [.closeInterval] →
      Expands kernel .countTick
        ([.take .table, .countDown] ++ due ++ [.free .table] ++ Code.reschedule ++ [.unmask])
  | deadline (ticks : UInt32) :
      Expands kernel (.setDeadline ticks)
        [.retry (.until (kernel.ticks.ticks + ticks.toUInt64))]
  | awake {wakeAt : UInt64} : wakeAt ≤ kernel.ticks.ticks →
      Expands kernel (.checkDeadline wakeAt) (.unmask :: Code.done)
  | asleep {wakeAt : UInt64} : ¬ wakeAt ≤ kernel.ticks.ticks →
      Expands kernel (.checkDeadline wakeAt)
        ([.take .table, .doze (wakeAt - kernel.ticks.ticks), .free .table]
          ++ Code.reschedule ++ [.unmask, .retry (.until wakeAt)])
  | retry (call : Blocking) : Expands kernel (.retry call) (Code.attempt call)
  -- creation
  | pack {name : String} {body : Nat} {stackSize : UInt64} {block : Option UInt64}
      (creation : Creation) :
      Expands kernel (.pack name body stackSize block) (Code.create creation)
  | noRoom (creation : Creation) (text : String) (cause : Failure) :
      Expands kernel (.checkRoom creation) (Code.printLine text ++ Code.refuse creation cause)
  | room (creation : Creation) : Expands kernel (.checkRoom creation) [.allocate creation]
  | noStack (creation : Creation) (cause : Failure) :
      Expands kernel (.allocate creation) (Code.refuse creation cause)
  | stack (creation : Creation) (stack : Stack) :
      Expands kernel (.allocate creation) [.writeFrame creation stack]
  | frame (creation : Creation) (stack : Stack) :
      Expands kernel (.writeFrame creation stack) [.enroll creation stack]
  | noSlot (creation : Creation) (stack : Stack) (cause : Failure) :
      Expands kernel (.enroll creation stack) (Code.refuse creation cause)
  | slot (creation : Creation) (stack : Stack) (id : ThreadId) (pointer : UInt64)
      (text : String) :
      Expands kernel (.enroll creation stack)
        ([.savePointer id pointer] ++ Code.printLine text
          ++ [.free .table, .unmask, .finish (.thread id)])
  -- starting
  | alreadyStarted (cause : Failure) : Expands kernel .claimStart [.finish (.failed cause)]
  | claimed : Expands kernel .claimStart [.mask, .armTimer]
  | noTimer (cause : Failure) :
      Expands kernel .armTimer [.withdrawStart, .unmask, .finish (.failed cause)]
  | timer : Expands kernel .armTimer (.routeTicks :: Code.countThreads .banner)
  -- synchronization
  | acquired (mutex : Nat) (me : ThreadId) :
      Expands kernel (.tryAcquire mutex me) ([.free (.mutex mutex), .unmask, .unmask] ++ Code.done)
  | barred (mutex : Nat) (me : ThreadId) :
      Expands kernel (.tryAcquire mutex me)
        ([.free (.mutex mutex), .unmask] ++ Code.blockAndRetry (.ownership mutex))
  | released (mutex : Nat) (me : ThreadId) :
      Expands kernel (.tryRelease mutex me) ([.free (.mutex mutex), .unmask, .unmask] ++ Code.done)
  | passed (mutex : Nat) (me heir : ThreadId) :
      Expands kernel (.tryRelease mutex me)
        ([.free (.mutex mutex), .unmask] ++ (Code.wake heir ++ Code.switchTo heir)
          ++ [.unmask] ++ Code.done)
  | taken (semaphore : Nat) (me : ThreadId) :
      Expands kernel (.tryTake semaphore me)
        ([.free (.semaphore semaphore), .unmask, .unmask] ++ Code.done)
  | short (semaphore : Nat) (me : ThreadId) :
      Expands kernel (.tryTake semaphore me)
        ([.free (.semaphore semaphore), .unmask] ++ Code.blockAndRetry (.unit semaphore))
  | given (semaphore : Nat) (andSwitch : Bool) :
      Expands kernel (.giveBack semaphore andSwitch) [.free (.semaphore semaphore), .unmask]
  | woken (semaphore : Nat) (id : ThreadId) :
      Expands kernel (.giveBack semaphore false)
        ([.free (.semaphore semaphore), .unmask] ++ Code.wake id)
  | handed (semaphore : Nat) (id : ThreadId) :
      Expands kernel (.giveBack semaphore true)
        ([.free (.semaphore semaphore), .unmask] ++ (Code.wake id ++ Code.switchTo id))

namespace Machine

variable {P : Type} [Backend P]

/-- What a step other than a switch leaves behind beside the remaining steps. -/
structure Effect (m : Machine P) (step : Step) (after : Machine P) : Prop where
  executing : after.executing = m.executing
  others : ∀ id, id ≠ m.executing → after.contextOf id = m.contextOf id
  masking : after.context.masking = step.maskingAfter m.context.masking
  held : after.context.held = step.heldAfter m.context.held
  answer : after.context.answer = step.answerAfter m.context.answer
  policy : after.kernel.policy = m.kernel.policy
  table : after.kernel.table = step.tableAfter m.kernel.table
  ticks : after.kernel.ticks = step.ticksAfter m.kernel.ticks
  cpu : after.kernel.cpu = m.kernel.cpu ∨
    ∃ period, after.kernel.cpu = (Backend.startTimer m.kernel.cpu period).2
  tableTaken : after.kernel.tableTaken = step.tableTakenAfter m.kernel.tableTaken
  taken : after.shared.taken = step.takenAfter m.shared.taken
  mutexes : step.asksMutex = false → after.shared.mutexes = m.shared.mutexes
  semaphores : step.asksSemaphore = false → after.shared.semaphores = m.shared.semaphores

theorem Effect.push {m base : Machine P} {step : Step} (h : m.Effect step base)
    (steps : List Step) : m.Effect step (base.push steps) where
  executing := h.executing
  others id hid := by
    rw [← h.others id hid]
    exact contextOf_modifyContext_of_ne _ _ (h.executing ▸ hid)
  masking := by rw [context_push, h.masking]
  held := by rw [context_push, h.held]
  answer := by rw [context_push, h.answer]
  policy := h.policy
  table := h.table
  ticks := h.ticks
  cpu := h.cpu
  tableTaken := h.tableTaken
  taken := h.taken
  mutexes := h.mutexes
  semaphores := h.semaphores

theorem effect_takeLock (m : Machine P) (lock : SpinLock) :
    m.Effect (.take lock) (m.takeLock lock) where
  executing := executing_setTaken m lock true
  others id hid := by
    rw [← executing_setTaken m lock true] at hid
    rw [takeLock, contextOf_modifyContext_of_ne _ _ hid, contextOf_setTaken]
  masking := by rw [context_takeLock]; rfl
  held := by rw [context_takeLock]; rfl
  answer := by rw [context_takeLock]; rfl
  policy := by cases lock <;> rfl
  table := by cases lock <;> rfl
  ticks := by cases lock <;> rfl
  cpu := .inl (by cases lock <;> rfl)
  tableTaken := by cases lock <;> rfl
  taken := by cases lock <;> rfl
  mutexes _ := by cases lock <;> rfl
  semaphores _ := by cases lock <;> rfl

theorem effect_freeLock (m : Machine P) (lock : SpinLock) :
    m.Effect (.free lock) (m.freeLock lock) where
  executing := executing_setTaken m lock false
  others id hid := by
    rw [← executing_setTaken m lock false] at hid
    rw [freeLock, contextOf_modifyContext_of_ne _ _ hid, contextOf_setTaken]
  masking := by rw [context_freeLock]; rfl
  held := by rw [context_freeLock]; rfl
  answer := by rw [context_freeLock]; rfl
  policy := by cases lock <;> rfl
  table := by cases lock <;> rfl
  ticks := by cases lock <;> rfl
  cpu := .inl (by cases lock <;> rfl)
  tableTaken := by cases lock <;> rfl
  taken := by cases lock <;> rfl
  mutexes _ := by cases lock <;> rfl
  semaphores _ := by cases lock <;> rfl

theorem effect_enroll (m : Machine P) (creation : Creation) (stack : Stack) :
    m.Effect (.enroll creation stack) (m.enroll creation stack) := by
  simp only [enroll]
  split
  next full =>
      apply Effect.push
      constructor <;> try first | rfl | exact fun _ _ => rfl | exact .inl rfl | exact fun _ => rfl
      simp only [Step.tableAfter, full, Option.map_none, Option.getD_none]
  next id table room =>
      apply Effect.push
      constructor <;> try first | rfl | exact fun _ _ => rfl | exact .inl rfl | exact fun _ => rfl
      simp only [Step.tableAfter, room, Option.map_some, Option.getD_some, modifyTable,
        kernel_modifyKernel]

theorem effect_armTimer (m : Machine P) : m.Effect .armTimer m.armTimer := by
  simp only [armTimer]
  split
  all_goals
    apply Effect.push
    constructor <;>
      first
      | rfl
      | exact fun _ _ => rfl
      | exact .inr ⟨m.kernel.config.tickPeriod, rfl⟩
      | exact fun _ => rfl

theorem effect_enter (m : Machine P) (call : EntryCall) :
    m.Effect (.enter call) (m.enter call) := by
  have hentered : m.Effect (.enter call)
      (m.modifyContext fun context => { context with entered := call :: context.entered }) :=
    { executing := rfl
      others := fun id hid => contextOf_modifyContext_of_ne m _ hid
      masking := by rw [context_modifyContext]; rfl
      held := by rw [context_modifyContext]; rfl
      answer := by rw [context_modifyContext]; rfl
      policy := rfl
      table := rfl
      ticks := rfl
      cpu := .inl rfl
      tableTaken := rfl
      taken := rfl
      mutexes := fun _ => rfl
      semaphores := fun _ => rfl }
  simp only [enter]
  split
  next => exact { hentered with }
  next => exact hentered

theorem effect_perform (m : Machine P) {step : Step} (h : step.isSwitch = false) :
    m.Effect step (m.perform step) := by
  cases step
  case switch => cases h
  case take lock => exact m.effect_takeLock lock
  case free lock => exact m.effect_freeLock lock
  case enroll creation stack => exact m.effect_enroll creation stack
  case armTimer => exact m.effect_armTimer
  case enter call => exact m.effect_enter call
  all_goals
    simp only [perform, leaveBody, finish, modifyMasking, modifyPacket, useIdentity, useCount,
      useChoice, useSnapshot, checkTarget, dispatch, pushAnswer, countTick, checkDeadline, pack,
      checkRoom, allocate, writeFrame, claimStart, routeTicks, tryAcquire, tryRelease, tryTake,
      giveBack, installSink, removeSink, savePointer]
    repeat' split
  -- what is put in front of the remaining steps does not matter here
  all_goals try apply Effect.push
  all_goals
    constructor <;>
      first
      | rfl
      | exact fun _ _ => rfl
      | exact fun id hid => contextOf_modifyContext_of_ne m _ hid
      | exact .inl rfl
      | exact fun _ => rfl
      | exact fun h => by cases h
      | simp [Step.maskingAfter, Step.heldAfter, Step.answerAfter]

end Machine

/-! ## The steps after a step -/

namespace Machine

variable {P : Type}

/-- The executing thread's steps after one step of it begin with what that step leads to. -/
def Unfolds (m : Machine P) (step : Step) (after : Machine P) : Prop :=
  ∃ pushed, m.kernel.Expands step pushed ∧ after.context.code = pushed ++ m.context.code

theorem unfolds_identify (m : Machine P) (use : IdentityUse) :
    m.Unfolds (.identify use) (m.useIdentity use) := by
  cases use
  case answer => exact ⟨_, .identity, code_push _ _⟩
  case acquire mutex => exact ⟨_, .acquire mutex, code_push _ _⟩
  case release mutex => exact ⟨_, .release mutex, code_push _ _⟩
  case take semaphore => exact ⟨_, .take semaphore, code_push _ _⟩

/-! ### Scheduling -/

theorem unfolds_checkTarget (m : Machine P) (target : ThreadId) :
    m.Unfolds (.checkTarget target) (m.checkTarget target) := by
  cases there : m.kernel.table.contains target with
  | true => exact ⟨_, .target there, by simp [checkTarget, there]⟩
  | false =>
      refine ⟨_, .answer (.failed (.scheduling (.noSuchThread target))) rfl, ?_⟩
      simp [checkTarget, there, pushAnswer]

theorem unfolds_dispatch (m : Machine P) (target : ThreadId) :
    m.Unfolds (.dispatch target) (m.dispatch target) := by
  by_cases same : m.kernel.table.current = target
  · subst same
    exact ⟨_, .stay, by simp [dispatch]⟩
  · exact ⟨_, .leave same, by simp [dispatch, same]⟩

theorem unfolds_checkDeadline (m : Machine P) (wakeAt : UInt64) :
    m.Unfolds (.checkDeadline wakeAt) (m.checkDeadline wakeAt) := by
  by_cases late : wakeAt ≤ m.kernel.ticks.ticks
  · exact ⟨_, .awake late, by simp [checkDeadline, late]⟩
  · exact ⟨_, .asleep late, by simp [checkDeadline, late]⟩

/-! ### Creation and start -/

theorem unfolds_checkRoom (m : Machine P) (creation : Creation) :
    m.Unfolds (.checkRoom creation) (m.checkRoom creation) := by
  cases full : m.kernel.table.isFull with
  | true =>
      refine ⟨_, .noRoom creation (Code.refusalLine creation) (.creation .tableFull), ?_⟩
      simp [checkRoom, full]
  | false => exact ⟨_, .room creation, by simp [checkRoom, full]⟩

/-- A creation whose stack fits into the address space depends on the allocator. -/
theorem allocate_cases [Backend P] (m : Machine P) (creation : Creation) :
    UInt64.size ≤ creation.stackSize.toNat + (Backend.reserved m.kernel.cpu).toNat ∧
        m.allocate creation =
          m.push (Code.refuse creation (.creation (.stackTooLarge creation.stackSize))) ∨
      creation.stackSize.toNat + (Backend.reserved m.kernel.cpu).toNat < UInt64.size ∧
        ((∃ cause, Stack.allocate (creation.stackSize + Backend.reserved m.kernel.cpu)
            creation.block = .error cause ∧
              m.allocate creation = m.push (Code.refuse creation (.memory cause))) ∨
          ∃ stack, Stack.allocate (creation.stackSize + Backend.reserved m.kernel.cpu)
            creation.block = .ok stack ∧
              m.allocate creation = m.push [.writeFrame creation stack]) := by
  rw [allocate]
  split
  next hlarge => exact .inl ⟨hlarge, rfl⟩
  next hsmall =>
      refine .inr ⟨Nat.not_le.1 hsmall, ?_⟩
      cases Stack.allocate (creation.stackSize + Backend.reserved m.kernel.cpu) creation.block with
      | error cause => exact .inl ⟨cause, rfl, rfl⟩
      | ok stack => exact .inr ⟨stack, rfl, rfl⟩

theorem unfolds_allocate [Backend P] (m : Machine P) (creation : Creation) :
    m.Unfolds (.allocate creation) (m.allocate creation) := by
  rcases m.allocate_cases creation with
    ⟨-, hafter⟩ | ⟨-, ⟨cause, -, hafter⟩ | ⟨stack, -, hafter⟩⟩
  · exact ⟨_, .noStack creation _, hafter ▸ code_push _ _⟩
  · exact ⟨_, .noStack creation _, hafter ▸ code_push _ _⟩
  · exact ⟨_, .stack creation _, hafter ▸ code_push _ _⟩

theorem unfolds_enroll [Backend P] (m : Machine P) (creation : Creation) (stack : Stack) :
    m.Unfolds (.enroll creation stack) (m.enroll creation stack) := by
  rw [enroll]
  split
  · exact ⟨_, .noSlot creation stack _, code_push _ _⟩
  · exact ⟨_, .slot creation stack _ _ _, code_push _ _⟩

theorem unfolds_claimStart (m : Machine P) : m.Unfolds .claimStart m.claimStart := by
  rw [claimStart]
  split
  · exact ⟨_, .alreadyStarted _, code_push _ _⟩
  · exact ⟨_, .claimed, code_push _ _⟩

theorem unfolds_armTimer [Backend P] (m : Machine P) : m.Unfolds .armTimer m.armTimer := by
  simp only [armTimer]
  split
  · exact ⟨_, .noTimer _, code_push _ _⟩
  · exact ⟨_, .timer, code_push _ _⟩

/-! ### Mutexes and semaphores -/

theorem unfolds_tryAcquire (m : Machine P) (mutex : Nat) (me : ThreadId) :
    m.Unfolds (.tryAcquire mutex me) (m.tryAcquire mutex me) := by
  rw [tryAcquire]
  split
  · exact ⟨_, .acquired mutex me, code_push _ _⟩
  · split
    · exact ⟨_, .acquired mutex me, code_push _ _⟩
    · exact ⟨_, .barred mutex me, code_push _ _⟩

theorem unfolds_tryRelease (m : Machine P) (mutex : Nat) (me : ThreadId) :
    m.Unfolds (.tryRelease mutex me) (m.tryRelease mutex me) := by
  rw [tryRelease]
  split
  · exact ⟨_, .released mutex me, code_push _ _⟩
  · exact ⟨_, .released mutex me, code_push _ _⟩
  next heir after _ =>
      cases heir with
      | none => exact ⟨_, .released mutex me, code_push _ _⟩
      | some heir => exact ⟨_, .passed mutex me heir, code_push _ _⟩

theorem unfolds_tryTake (m : Machine P) (semaphore : Nat) (me : ThreadId) :
    m.Unfolds (.tryTake semaphore me) (m.tryTake semaphore me) := by
  rw [tryTake]
  split
  · exact ⟨_, .taken semaphore me, code_push _ _⟩
  · split
    · exact ⟨_, .taken semaphore me, code_push _ _⟩
    · exact ⟨_, .short semaphore me, code_push _ _⟩

theorem unfolds_giveBack (m : Machine P) (semaphore : Nat) (andSwitch : Bool) :
    m.Unfolds (.giveBack semaphore andSwitch) (m.giveBack semaphore andSwitch) := by
  rw [giveBack]
  split
  · exact ⟨_, .given semaphore andSwitch, code_push _ _⟩
  next woken after _ =>
      cases woken with
      | none => exact ⟨_, .given semaphore andSwitch, code_push _ _⟩
      | some id =>
          cases andSwitch with
          | false => exact ⟨_, .woken semaphore id, code_push _ _⟩
          | true => exact ⟨_, .handed semaphore id, code_push _ _⟩

/-! ### Every step -/

theorem expands_perform [Backend P] (m : Machine P) {step : Step} (h : step.isSwitch = false) :
    m.Unfolds step (m.perform step) := by
  cases step
  case switch => cases h
  case identify use => exact m.unfolds_identify use
  case countThreads use =>
      cases use
      case answer => exact ⟨_, .count _, code_push _ _⟩
      case banner => exact ⟨_, .banner _, code_push _ _⟩
  case choose use =>
      cases use
      case answer => exact ⟨_, .answer _ rfl, code_push _ _⟩
      case dispatch => exact ⟨_, .choice, code_push _ _⟩
  case snapshot use =>
      cases use
      case answer => exact ⟨_, .answer _ rfl, code_push _ _⟩
      case print => exact ⟨_, .report _, code_push _ _⟩
  case describe id => exact ⟨_, .answer _ rfl, code_push _ _⟩
  case inspect query => exact ⟨_, .answer _ rfl, code_push _ _⟩
  case install sink => exact ⟨_, .answer _ rfl, code_push _ _⟩
  case remove => exact ⟨_, .answer _ rfl, code_push _ _⟩
  case checkTarget target => exact m.unfolds_checkTarget target
  case dispatch target => exact m.unfolds_dispatch target
  case countTick => exact ⟨_, .tick (by split <;> simp), code_push _ _⟩
  case setDeadline ticks => exact ⟨_, .deadline ticks, code_push _ _⟩
  case checkDeadline wakeAt => exact m.unfolds_checkDeadline wakeAt
  case retry call => exact ⟨_, .retry call, code_push _ _⟩
  case pack name body stackSize block => exact ⟨_, .pack _, code_push _ _⟩
  case checkRoom creation => exact m.unfolds_checkRoom creation
  case allocate creation => exact m.unfolds_allocate creation
  case writeFrame creation stack => exact ⟨_, .frame creation stack, code_push _ _⟩
  case enroll creation stack => exact m.unfolds_enroll creation stack
  case claimStart => exact m.unfolds_claimStart
  case armTimer => exact m.unfolds_armTimer
  case tryAcquire mutex me => exact m.unfolds_tryAcquire mutex me
  case tryRelease mutex me => exact m.unfolds_tryRelease mutex me
  case tryTake semaphore me => exact m.unfolds_tryTake semaphore me
  case giveBack semaphore andSwitch => exact m.unfolds_giveBack semaphore andSwitch
  case enter call =>
      refine ⟨_, .nothing rfl, ?_⟩
      simp only [perform, enter]
      split <;> simp [modifyPacket]
  case leaveBody =>
      refine ⟨_, .nothing rfl, ?_⟩
      simp only [perform, leaveBody]
      split
      · split <;> rfl
      · rfl
  -- the plain steps change no code at all
  all_goals
    refine ⟨_, .nothing rfl, ?_⟩
    simp only [perform, finish, savePointer, modifyPacket, routeTicks, setConsole, List.nil_append,
      context_modifyMasking, context_takeLock, context_freeLock, context_modifyContext,
      context_modifyTable, context_modifyKernel, context_modifyShared]

end Machine

end TickKernel
