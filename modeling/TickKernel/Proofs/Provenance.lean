import TickKernel.Proofs.Expansion

/-!
# Where steps come from

Steps of many kinds handle guards and locks, give answers and print.  Any other step is put in
front of the remaining ones by steps of a few kinds only, or stands in the code of an operation
from the start.  What no step leads to and no operation begins with, a thread comes to by an
interrupt or when it is launched.
-/

namespace TickKernel

namespace Step

def leadsTo (step : Step) : Step → Bool
  | .mask | .unmask | .take _ | .free _ | .finish _ | .print _ | .choose .dispatch => true
  | .setFlag _ => step == .countThreads .banner
  -- rounds of blocking calls
  | .retry _ =>
      match step with
      | .setDeadline _ | .checkDeadline _ | .tryAcquire _ _ | .tryTake _ _ | .retry .forever => true
      | _ => false
  | .identify (.acquire _) | .identify (.take _) | .checkDeadline _ =>
      match step with
      | .retry _ => true
      | _ => false
  | .tryAcquire _ _ | .tryRelease _ _ | .tryTake _ _ =>
      match step with
      | .identify _ => true
      | _ => false
  | .block =>
      match step with
      | .tryAcquire _ _ | .tryTake _ _ | .retry .forever => true
      | _ => false
  | .doze _ =>
      match step with
      | .checkDeadline _ => true
      | _ => false
  -- dispatches
  | .dispatch _ =>
      match step with
      | .choose .dispatch | .checkTarget _ | .tryRelease _ _ | .giveBack _ true => true
      | _ => false
  | .switch _ _ =>
      match step with
      | .dispatch _ => true
      | _ => false
  | .wake _ =>
      match step with
      | .tryRelease _ _ | .giveBack _ _ => true
      | _ => false
  -- time
  | .countDown | .closeInterval => step == .countTick
  -- creation
  | .checkRoom _ =>
      match step with
      | .pack _ _ _ _ => true
      | _ => false
  | .allocate _ =>
      match step with
      | .checkRoom _ => true
      | _ => false
  | .writeFrame _ _ =>
      match step with
      | .allocate _ => true
      | _ => false
  | .enroll _ _ =>
      match step with
      | .writeFrame _ _ => true
      | _ => false
  | .savePointer _ _ =>
      match step with
      | .enroll _ _ => true
      | _ => false
  | .discard _ =>
      match step with
      | .checkRoom _ | .allocate _ | .enroll _ _ => true
      | _ => false
  -- starting
  | .armTimer => step == .claimStart
  | .countThreads .banner | .withdrawStart | .routeTicks => step == .armTimer
  | _ => false

/-- Steps that stand in the code of an operation from the start. -/
def isAskedFor : Step → Bool
  | .mask | .unmask | .take _ | .setFlag _ | .finish _ | .retry _ | .identify _ | .countThreads _
  | .choose _ | .checkTarget _ | .describe _ | .snapshot _ | .countTick | .setDeadline _
  | .pack _ _ _ _ | .checkRoom _ | .leaveBody | .claimStart | .giveBack _ _ | .inspect _
  | .free _ | .print _ | .install _ | .remove => true
  | _ => false

end Step

theorem Code.leadsTo_refuse {step : Step} {creation : Creation}
    (h : ∀ packet, step.leadsTo (.discard packet) = true) (cause : Failure) :
    (Code.refuse creation cause).all step.leadsTo = true := by
  have hdiscard : (creation.packet.map Step.discard).toList.all step.leadsTo = true := by
    cases creation.packet with
    | none => rfl
    | some packet => exact Bool.and_eq_true_iff.2 ⟨h packet, rfl⟩
  rw [Code.refuse, List.all_append, List.all_append, hdiscard]
  rfl

/-- A step puts nothing in front of the others but steps to which it may lead. -/
theorem Kernel.Expands.leadsTo {P : Type} {kernel : Kernel P} {step other : Step}
    {pushed : List Step} (h : kernel.Expands step pushed) (hmem : other ∈ pushed) :
    step.leadsTo other = true := by
  refine List.all_eq_true.1 (?_ : pushed.all step.leadsTo = true) other hmem
  clear hmem
  cases h
  case tick due hdue => rcases hdue with rfl | rfl <;> rfl
  case retry call => cases call <;> rfl
  case noRoom creation text cause =>
      rw [List.all_append, Code.leadsTo_refuse (fun _ => rfl), Bool.and_true]
      rfl
  case noStack creation cause => exact Code.leadsTo_refuse (fun _ => rfl) cause
  case noSlot creation stack cause => exact Code.leadsTo_refuse (fun _ => rfl) cause
  all_goals rfl

theorem Request.isAskedFor_code (request : Request) {step : Step} (hmem : step ∈ request.code) :
    step.isAskedFor = true := by
  refine List.all_eq_true.1 (?_ : request.code.all Step.isAskedFor = true) step hmem
  clear hmem
  cases request
  case sleep ticks =>
      simp only [Request.code]
      split <;> rfl
  all_goals rfl

end TickKernel
