import TickKernel.Proofs.Distributor

/-!
# Acknowledging and completing

The processor interface answers with an interrupt when it is read, and is told when the
interrupt was dealt with.  An entry has told it before anything else goes on, and a start of the
timer has nothing to say about interrupts; so what was read and what was told can be paired off.
-/

namespace TickKernel

/-- What passes between the processor and the interrupt controller about an interrupt. -/
inductive Exchange where
  | acknowledged (interrupt : UInt32)
  | completed (interrupt : UInt32)
  deriving DecidableEq, Repr

def BoardModel.exchange? (model : BoardModel) : Access → Option Exchange
  | .read address value =>
      if address = model.processorInterface + Board.InterfaceRegister.acknowledge.offset then
        some (.acknowledged (value &&& 0x3FF))
      else none
  | .write address value =>
      if address = model.processorInterface + Board.InterfaceRegister.complete.offset then
        some (.completed value)
      else none
  | .timerValue _ | .timerControl _ | .vectors => none

namespace Exchange

def unfinishedAfter (unfinished : List UInt32) : Exchange → List UInt32
  | .acknowledged interrupt =>
      if interrupt = Board.spuriousInterrupt then unfinished else interrupt :: unfinished
  | .completed interrupt => unfinished.erase interrupt

/-- All that an entry exchanges about the interrupt that it finds. -/
def ofEntry (interrupt : UInt32) : List Exchange :=
  if interrupt = Board.spuriousInterrupt then [.acknowledged interrupt]
  else [.acknowledged interrupt, .completed interrupt]

/-- An entry leaves nothing unfinished. -/
theorem foldl_ofEntry (unfinished : List UInt32) (interrupt : UInt32) :
    (ofEntry interrupt).foldl unfinishedAfter unfinished = unfinished := by
  unfold ofEntry
  split
  next h => simp [unfinishedAfter, h]
  next h => simp [unfinishedAfter, h]

theorem foldl_flatMap_ofEntry (unfinished interrupts : List UInt32) :
    (interrupts.flatMap ofEntry).foldl unfinishedAfter unfinished = unfinished := by
  induction interrupts with
  | nil => rfl
  | cons interrupt interrupts ih =>
      rw [List.flatMap_cons, List.foldl_append, foldl_ofEntry, ih]

end Exchange

namespace Board

variable {board after : Board}

/-- What was exchanged with the interrupt controller, oldest first. -/
def exchanges (board : Board) : List Exchange :=
  board.trace.filterMap board.model.exchange?

def unfinished (board : Board) : List UInt32 :=
  board.exchanges.foldl Exchange.unfinishedAfter []

def raised (board : Board) : UInt32 :=
  board.words (board.interfaceAddress .acknowledge) &&& 0x3FF

/-- The accesses of an interrupt entry. -/
def service (board : Board) : List Access :=
  .read (board.interfaceAddress .acknowledge) (board.words (board.interfaceAddress .acknowledge)) ::
    if board.raised = spuriousInterrupt then []
    else if board.raised = timerInterrupt then
      programming board.interval ++ [.write (board.interfaceAddress .complete) timerInterrupt]
    else [.write (board.interfaceAddress .complete) board.raised]

/-! ## The interrupt entry -/

theorem serveInterrupt_of_spurious (h : board.raised = spuriousInterrupt) :
    board.serveInterrupt = (false, board.acknowledge.2) :=
  if_pos h

theorem serveInterrupt_of_timer (h : board.raised = timerInterrupt) :
    board.serveInterrupt = (true, board.acknowledge.2.rearm.complete timerInterrupt) := by
  have hreal : board.raised ≠ spuriousInterrupt := by
    rw [h]
    decide
  unfold serveInterrupt
  simp only
  exact (if_neg hreal).trans ((if_pos h).trans (by rw [← h]; rfl))

theorem serveInterrupt_of_other (hreal : board.raised ≠ spuriousInterrupt)
    (h : board.raised ≠ timerInterrupt) :
    board.serveInterrupt = (false, board.acknowledge.2.complete board.raised) :=
  (if_neg hreal).trans (if_neg h)

/-- What an interrupt entry does to a board. -/
structure Served (board after : Board) : Prop where
  trace : after.trace = board.trace ++ board.service
  model : after.model = board.model
  interval : after.interval = board.interval

theorem served (board : Board) : board.Served board.serveInterrupt.2 := by
  by_cases hspurious : board.raised = spuriousInterrupt
  · rw [serveInterrupt_of_spurious hspurious]
    refine ⟨?_, rfl, rfl⟩
    rw [service, if_pos hspurious]
    rfl
  · by_cases htimer : board.raised = timerInterrupt
    · rw [serveInterrupt_of_timer htimer]
      refine ⟨?_, rfl, rfl⟩
      rw [service, if_neg hspurious, if_pos htimer, complete, trace_write]
      simp only [rearm, record, acknowledge, read, programming, List.append_assoc, List.cons_append,
        List.nil_append]
      rfl
    · rw [serveInterrupt_of_other hspurious htimer]
      refine ⟨?_, rfl, rfl⟩
      rw [service, if_neg hspurious, if_neg htimer, complete, trace_write]
      simp only [acknowledge, trace_read, List.append_assoc, List.cons_append, List.nil_append]
      rfl

theorem serveInterrupt_eq_true (board : Board) :
    board.serveInterrupt.1 = true ↔ board.raised = timerInterrupt := by
  by_cases htimer : board.raised = timerInterrupt
  · rw [serveInterrupt_of_timer htimer]
    exact iff_of_true rfl htimer
  · by_cases hspurious : board.raised = spuriousInterrupt
    · rw [serveInterrupt_of_spurious hspurious]
      exact iff_of_false Bool.false_ne_true htimer
    · rw [serveInterrupt_of_other hspurious htimer]
      exact iff_of_false Bool.false_ne_true htimer

theorem serveInterrupt_adopt (own board : Board) :
    (Backend.adopt own board).serveInterrupt =
      (board.serveInterrupt.1, Backend.adopt own board.serveInterrupt.2) := by
  have hraised : (Backend.adopt own board).raised = board.raised := rfl
  by_cases htimer : board.raised = timerInterrupt
  · rw [serveInterrupt_of_timer htimer, serveInterrupt_of_timer (hraised.trans htimer)]
    rfl
  · by_cases hspurious : board.raised = spuriousInterrupt
    · rw [serveInterrupt_of_spurious hspurious,
        serveInterrupt_of_spurious (hraised.trans hspurious)]
      rfl
    · rw [serveInterrupt_of_other hspurious htimer,
        serveInterrupt_of_other (hraised ▸ hspurious) (hraised ▸ htimer)]
      rfl

theorem exchanges_append {accesses : List Access} (hmodel : after.model = board.model)
    (htrace : after.trace = board.trace ++ accesses) :
    after.exchanges = board.exchanges ++ accesses.filterMap board.model.exchange? := by
  rw [exchanges, htrace, hmodel, List.filterMap_append]
  rfl

theorem exchange?_acknowledge (board : Board) (value : UInt32) :
    board.model.exchange? (.read (board.interfaceAddress .acknowledge) value) =
      some (.acknowledged (value &&& 0x3FF)) :=
  if_pos rfl

theorem exchange?_complete (board : Board) (value : UInt32) :
    board.model.exchange? (.write (board.interfaceAddress .complete) value) =
      some (.completed value) :=
  if_pos rfl

theorem filterMap_programming (model : BoardModel) (interval : UInt64) :
    (programming interval).filterMap model.exchange? = [] :=
  rfl

/-- An entry acknowledges one interrupt, and completes it if there is one. -/
theorem Served.exchanges (h : board.Served after) :
    after.exchanges = board.exchanges ++ Exchange.ofEntry board.raised := by
  rw [exchanges_append h.model h.trace, service,
    List.filterMap_cons_some (board.exchange?_acknowledge _), Exchange.ofEntry]
  split
  next => rfl
  next =>
      split
      next htimer =>
          rw [List.filterMap_append, filterMap_programming, List.nil_append,
            List.filterMap_cons_some (board.exchange?_complete _), ← htimer]
          rfl
      next =>
          rw [List.filterMap_cons_some (board.exchange?_complete _)]
          rfl

/-! ## Starts of the timer -/

theorem exchange?_distributor (board : Board) (register : DistributorRegister) {word : Nat}
    (h : word < 256) (value : UInt32) :
    board.model.exchange?
        (.read (board.distributorAddress register (4 * UInt64.ofNat word)) value) = none ∧
      board.model.exchange?
        (.write (board.distributorAddress register (4 * UInt64.ofNat word)) value) = none := by
  have hother := distributorAddress_ne_interfaceAddress board register h
  exact ⟨if_neg (hother .acknowledge), if_neg (hother .complete)⟩

theorem exchange?_interface (board : Board) {register : InterfaceRegister}
    (h : register.offset ≠ InterfaceRegister.complete.offset) (value : UInt32) :
    board.model.exchange? (.write (board.interfaceAddress register) value) = none := by
  exact if_neg fun heq => h ((UInt64.add_right_inj _).1 heq)

theorem exchange?_of_writable {address : UInt64} (h : board.Writable address) (value : UInt32) :
    board.model.exchange? (.write address value) = none := by
  have hwords := bankWords_le board.kind
  cases h with
  | distributorControl => exact (@exchange?_distributor board .control 0 (by decide) value).2
  | interfaceControl => exact board.exchange?_interface (by decide) value
  | priorityMask => exact board.exchange?_interface (by decide) value
  | binaryPoint => exact board.exchange?_interface (by decide) value
  | bit register word _ hword =>
      exact (board.exchange?_distributor register (by omega) value).2
  | byte word hword => exact (board.exchange?_distributor .priority (by omega) value).2

theorem exchange?_of_mem_startAccesses {access : Access} (h : access ∈ board.startAccesses) :
    board.model.exchange? access = none := by
  cases access with
  | read address value =>
      rcases eq_of_read_mem_startAccesses h with rfl | rfl
      · exact (@exchange?_distributor board .kind 0 (by decide) value).1
      · exact (@exchange?_distributor board .priority 7 (by decide) value).1
  | write address value => exact exchange?_of_writable (writable_of_mem_startAccesses h) value
  | timerValue | timerControl | vectors => rfl

theorem exchanges_startController (board : Board) :
    board.startController.2.exchanges = board.exchanges := by
  have hmodel := (Keeps.refl board).startController.model
  by_cases hanswers : board.Answers
  · rw [exchanges_append hmodel (trace_startController hanswers),
      List.filterMap_eq_nil_iff.2 fun _ => exchange?_of_mem_startAccesses, List.append_nil]
  · have htrace : board.startController.2.trace =
        board.trace ++ [.read (board.distributorAddress .kind 0) board.kind] := by
      rw [startController_of_missing hanswers]
      rfl
    have hkind : board.model.exchange?
        (.read (board.distributorAddress .kind 0) board.kind) = none :=
      (@exchange?_distributor board .kind 0 (by decide) board.kind).1
    rw [exchanges_append hmodel htrace, List.filterMap_cons_none hkind, List.filterMap_nil,
      List.append_nil]

theorem exchanges_rearm (board : Board) : board.rearm.exchanges = board.exchanges := by
  have htrace : board.rearm.trace = board.trace ++ programming board.interval := by
    simp only [rearm, record, programming, List.append_assoc, List.cons_append, List.nil_append]
  rw [@exchanges_append board board.rearm _ rfl htrace, filterMap_programming, List.append_nil]

/-- However it ends, a start of the timer exchanges nothing about interrupts. -/
theorem exchanges_startTimer (board : Board) (period : UInt32) :
    (board.startTimer period).2.exchanges = board.exchanges := by
  have hvectors : (board.record .vectors).exchanges = board.exchanges := by
    rw [@exchanges_append board (board.record .vectors) [.vectors] rfl rfl]
    exact List.append_nil _
  have hstarted := exchanges_startController (board.record .vectors)
  rw [hvectors] at hstarted
  unfold startTimer
  split
  next heq =>
      rw [heq] at hstarted
      exact hstarted
  next ready heq =>
      rw [heq] at hstarted
      simp only
      split
      next => exact hstarted
      next =>
          split
          next => exact hstarted
          next => exact (exchanges_rearm _).trans hstarted

end Board

end TickKernel
