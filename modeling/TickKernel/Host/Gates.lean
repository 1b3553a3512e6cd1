import TickKernel.Thread.Id

/-!
# Gates of host threads

On a host every kernel thread is carried by a host thread that waits at its own
gate.  A switch opens the gate of the next carrier and waits at the own one.
Gates are kept by slot; the first switch to a slot launches its carrier.
-/

namespace TickKernel

namespace Host

structure Gate where
  slot : ThreadId
  isOpen : Bool
  deriving DecidableEq, Repr, Inhabited

/-- The gates of one kernel, in the order in which they were made. -/
abbrev Gates := List Gate

namespace Gates

def has (gates : Gates) (slot : ThreadId) : Bool :=
  gates.any (·.slot == slot)

def make (gates : Gates) (slot : ThreadId) : Gates :=
  gates ++ [⟨slot, false⟩]

/-- The gate of a slot is made the first time it is asked for. -/
def ensure (gates : Gates) (slot : ThreadId) : Gates :=
  if gates.has slot then gates else gates.make slot

def setOpen (gates : Gates) (slot : ThreadId) (isOpen : Bool) : Gates :=
  gates.map fun gate => if gate.slot = slot then { gate with isOpen := isOpen } else gate

def isOpen (gates : Gates) (slot : ThreadId) : Bool :=
  gates.any fun gate => gate.slot == slot && gate.isOpen

/-- Go through an open gate and close it behind; a closed gate holds its carrier. -/
def pass? (gates : Gates) (slot : ThreadId) : Option Gates :=
  if gates.isOpen slot then some (gates.setOpen slot false) else none

def openCount (gates : Gates) : Nat :=
  gates.countP (·.isOpen)

/--
A whole switch: the outgoing carrier makes sure of its gate, finds or launches
the incoming one and opens its gate; the incoming carrier goes through.  The
result also tells whether the incoming carrier was there before.
-/
def switch (gates : Gates) (next prev : ThreadId) : Bool × Gates :=
  let own := gates.ensure prev
  let opened := (own.ensure next).setOpen next true
  (own.has next, (opened.pass? next).getD opened)

@[simp]
theorem has_make_self (gates : Gates) (slot : ThreadId) : (gates.make slot).has slot = true := by
  simp [has, make]

@[simp]
theorem has_ensure_self (gates : Gates) (slot : ThreadId) :
    (gates.ensure slot).has slot = true := by
  unfold ensure
  split
  · assumption
  · simp

end Gates

end Host

structure Host where
  gates : Host.Gates := []
  /-- Period of the tick timer in microseconds, zero until it was started. -/
  tickPeriod : UInt32 := 0
  deriving DecidableEq, Repr, Inhabited

namespace Host

/-- Number of carriers, that of the idle thread included once it was switched away from. -/
def carriers (host : Host) : Nat :=
  host.gates.length

/-- There is no timer on a host: the period is checked and recorded. -/
def startTimer (host : Host) (period : UInt32) : Host :=
  { host with tickPeriod := period }

end Host

end TickKernel
