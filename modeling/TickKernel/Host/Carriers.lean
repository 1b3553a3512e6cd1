import TickKernel.Host.Gates

/-!
# Carriers side by side

Host threads overlap: between opening the next gate and waiting at its own, an
outgoing carrier runs beside the incoming one.  This module takes a switch apart
into the steps that are atomic under the gates' own locks and lets the carriers
interleave them freely.  A new carrier's gate is made before the carrier is launched
and kept with the others only after that, so for a while it cannot be found.
-/

namespace TickKernel.Host

inductive Carrier where
  /-- Not launched yet. -/
  | absent
  /-- Runs thread or kernel code. -/
  | holding
  /-- In a switch to `next`, its own gate made sure of. -/
  | prepared (next : ThreadId)
  /-- In a switch to `next`, for which it found no gate. -/
  | missing (next : ThreadId)
  /-- In a switch to `next`, whose carrier it launched. -/
  | launched (next : ThreadId)
  /-- In a switch to `next`, whose gate is there. -/
  | aimed (next : ThreadId)
  /-- On the way to its own gate. -/
  | turning
  /-- Waits at its own gate. -/
  | waiting
  deriving DecidableEq, Repr

namespace Carrier

def target? : Carrier → Option ThreadId
  | prepared next | missing next | launched next | aimed next => some next
  | absent | holding | turning | waiting => none

/-- From passing its gate until it opens another one, a carrier holds the processor. -/
def holdsProcessor : Carrier → Bool
  | holding | prepared _ | missing _ | launched _ | aimed _ => true
  | absent | turning | waiting => false

def isOutside : Carrier → Bool
  | turning | waiting => true
  | absent | holding | prepared _ | missing _ | launched _ | aimed _ => false

end Carrier

inductive Action where
  /-- Begin a switch: make sure of the own gate. -/
  | prepare (next : ThreadId)
  /-- Look the next carrier's gate up. -/
  | lookUp
  /-- Launch the next carrier, which goes to a new gate of its own. -/
  | launch
  /-- Keep the gate of the carrier launched with the others. -/
  | keep
  /-- Open the next carrier's gate. -/
  | release (next : ThreadId)
  /-- Come to the own gate. -/
  | turn
  /-- Go through the own gate and close it behind. -/
  | pass
  deriving DecidableEq, Repr

/-- An elementary step and the slot of the carrier that does it. -/
structure Event where
  carrier : ThreadId
  action : Action
  deriving DecidableEq, Repr

structure Carriers where
  gates : Gates
  carrier : ThreadId → Carrier

namespace Carriers

def initial : Carriers where
  gates := []
  carrier id := if id = ThreadId.idle then .holding else .absent

def put (state : Carriers) (id : ThreadId) (carrier : Carrier) : Carriers :=
  { state with carrier := fun other => if other = id then carrier else state.carrier other }

def withGates (state : Carriers) (gates : Gates) : Carriers :=
  { state with gates := gates }

/-- What a carrier's step leads to, if the carrier has come to it. -/
def act? (state : Carriers) (id : ThreadId) : Action → Option Carriers
  | .prepare next =>
      if state.carrier id = .holding ∧ next ≠ id then
        some ((state.put id (.prepared next)).withGates (state.gates.ensure id))
      else none
  | .lookUp =>
      match state.carrier id with
      | .prepared next =>
          some (state.put id (if state.gates.has next then .aimed next else .missing next))
      | _ => none
  | .launch =>
      match state.carrier id with
      | .missing next => some ((state.put next .turning).put id (.launched next))
      | _ => none
  | .keep =>
      match state.carrier id with
      | .launched next =>
          some ((state.put id (.aimed next)).withGates (state.gates.make next))
      | _ => none
  | .release next =>
      if state.carrier id = .aimed next then
        some ((state.put id .turning).withGates (state.gates.setOpen next true))
      else none
  | .turn => if state.carrier id = .turning then some (state.put id .waiting) else none
  | .pass =>
      if state.carrier id = .waiting then
        (state.gates.pass? id).map (state.put id .holding).withGates
      else none

/-- The states that carriers can come to, and the steps that led there. -/
inductive Course : List Event → Carriers → Prop where
  | start : Course [] initial
  | step {past : List Event} {state after : Carriers} (event : Event) :
      Course past state → state.act? event.carrier event.action = some after →
        Course (past ++ [event]) after

/-- Carriers holding the processor, and open gates. -/
def tokens (state : Carriers) : Nat :=
  ThreadId.all.countP (fun id => (state.carrier id).holdsProcessor) + state.gates.openCount

end Carriers

end TickKernel.Host
