import TickKernel.Kernel.Exec

/-!
# Runs

Every way in which a kernel can go on.  Threads ask for any operation at any time,
and the timer interrupts at any instant at which the executing thread takes
interrupts, between two rounds of a blocking call as well as between two steps.
A run keeps its transitions, so what happened in it can be counted.
-/

namespace TickKernel

inductive Move where
  /-- The executing thread does its next step. -/
  | exec
  /-- The executing thread, in its own code, asks for an operation. -/
  | call (request : Request)
  /-- The timer interrupts the executing thread. -/
  | interrupt
  deriving DecidableEq, Repr

namespace Machine

variable {P : Type} [Backend P]

def Allows (m : Machine P) : Move → Prop
  | .exec => m.atUserLevel = false
  | .call _ => m.atUserLevel = true
  | .interrupt => m.interruptsEnabled = true

instance (m : Machine P) (move : Move) : Decidable (m.Allows move) := by
  cases move <;> unfold Allows <;> infer_instance

def after (m : Machine P) : Move → Machine P
  | .exec => m.exec
  | .call request => m.call request
  | .interrupt => m.interrupt

def nextStep? (m : Machine P) : Option Step :=
  m.context.code.head?

end Machine

/-- One move of a run and the machine it started from. -/
structure Transition (P : Type) where
  before : Machine P
  move : Move

namespace Transition

variable {P : Type} [Backend P]

def after (t : Transition P) : Machine P :=
  t.before.after t.move

def step? (t : Transition P) : Option Step :=
  match t.move with
  | .exec => t.before.nextStep?.filter fun step => !t.before.spins step
  | .call _ | .interrupt => none

/-- The thread dispatched in a transition.  A hand-back is no dispatch. -/
def dispatched? (t : Transition P) : Option ThreadId :=
  match t.step? with
  | some (.dispatch target) =>
      if t.before.kernel.table.handsBack target then none else some target
  | _ => none

end Transition

/-- A run from one machine to another, with its transitions in order. -/
inductive Run {P : Type} [Backend P] (start : Machine P) :
    List (Transition P) → Machine P → Prop where
  | nil : Run start [] start
  | snoc {past : List (Transition P)} {m : Machine P} (move : Move) :
      Run start past m → m.Allows move → Run start (past ++ [⟨m, move⟩]) (m.after move)

theorem Run.trans {P : Type} [Backend P] {start middle finish : Machine P}
    {first second : List (Transition P)} (h : Run start first middle)
    (g : Run middle second finish) : Run start (first ++ second) finish := by
  induction g with
  | nil => simpa using h
  | snoc move _ allowed ih =>
      rw [← List.append_assoc]
      exact .snoc move ih allowed

end TickKernel
