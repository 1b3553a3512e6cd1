import TickKernel.Host.Processor
import TickKernel.Proofs.TickTimer

/-!
# Suspended threads are resumed

A processor remembers which threads were suspended by a switch.  Switching to such
a thread resumes it where it stood; nothing else makes a processor forget it.
-/

namespace TickKernel

/-- A processor that resumes every thread it suspended before. -/
class LawfulBackend (P : Type) [Backend P] where
  /-- Whether a switch suspended the thread of a slot. -/
  suspended : P → ThreadId → Prop
  resumes : ∀ (cpu : P) (next prev : ThreadId), suspended cpu next →
    (Backend.switch cpu next prev).1 = true
  suspends : ∀ (cpu : P) (next prev : ThreadId), suspended (Backend.switch cpu next prev).2 prev
  switch_keeps : ∀ (cpu : P) (next prev id : ThreadId), suspended cpu id →
    suspended (Backend.switch cpu next prev).2 id
  startTimer_keeps : ∀ (cpu : P) (period : UInt32) (id : ThreadId), suspended cpu id →
    suspended (Backend.startTimer cpu period).2 id

/-! ## Hosts -/

namespace Host.Gates

variable {gates : Gates} {slot : ThreadId}

theorem has_ensure_of_has (h : gates.has slot = true) (other : ThreadId) :
    (gates.ensure other).has slot = true := by
  unfold ensure
  split
  next => exact h
  next =>
      simp only [make, has, List.any_append, Bool.or_eq_true]
      exact .inl h

theorem has_setOpen (other : ThreadId) (isOpen : Bool) :
    (gates.setOpen other isOpen).has slot = gates.has slot := by
  simp only [setOpen, has, List.any_map]
  congr 1
  funext gate
  by_cases hgate : gate.slot = other <;> simp [hgate]

theorem has_switch_of_has (next prev : ThreadId) (h : (gates.ensure prev).has slot = true) :
    (gates.switch next prev).2.has slot = true := by
  have hopened : (((gates.ensure prev).ensure next).setOpen next true).has slot = true := by
    rw [has_setOpen]
    exact has_ensure_of_has h next
  simp only [switch, pass?]
  split
  next => rwa [Option.getD_some, has_setOpen]
  next => exact hopened

end Host.Gates

instance : LawfulBackend Host where
  suspended host id := host.gates.has id = true
  resumes host _ prev h := Host.Gates.has_ensure_of_has h prev
  suspends host next prev := Host.Gates.has_switch_of_has next prev (Host.Gates.has_ensure_self _ _)
  switch_keeps host next prev _ h :=
    Host.Gates.has_switch_of_has next prev (Host.Gates.has_ensure_of_has h prev)
  startTimer_keeps host period _ h := by
    simp only [Backend.startTimer]
    split <;> exact h

/-! ## Boards -/

instance : LawfulBackend Board where
  suspended board id := id ∈ board.suspended
  resumes board _ _ h := List.contains_iff_mem.2 h
  suspends board next prev := by
    simp only [Backend.switch]
    split
    next h => exact List.contains_iff_mem.1 h
    next => exact List.mem_cons_self
  switch_keeps board next prev id h := by
    simp only [Backend.switch]
    split
    next => exact h
    next => exact .tail _ h
  startTimer_keeps board period id h := by
    rw [show (Backend.startTimer board period).2.suspended = board.suspended from
      (board.same_startTimer period).2.2]
    exact h

end TickKernel
