import TickKernel.Kernel.Run

/-!
# Several kernels

The kernels of one process share semaphores, mutexes, the console, the processor's
hardware and the choice of the kernel that timer interrupts tick.  An operation
that is passed a kernel is carried out as that kernel's executing thread, whatever
thread asks for it.
-/

namespace TickKernel

variable {P : Type} [Backend P]

def Machine.withShared (m : Machine P) (shared : Shared) : Machine P :=
  { m with shared := shared }

/-- The machine with the hardware as another kernel left it. -/
def Machine.withHardware (m : Machine P) (seen : P) : Machine P :=
  m.modifyKernel fun kernel => { kernel with cpu := Backend.adopt kernel.cpu seen }

/--
Kernels side by side.  What a machine holds of the shared state and the hardware
gives way to what its process holds.
-/
structure Process (P : Type) where
  machines : List (Machine P)
  shared : Shared
  hardware : P

namespace Process

def machine? (process : Process P) (index : Nat) : Option (Machine P) :=
  process.machines[index]?.map fun m =>
    (m.withShared process.shared).withHardware process.hardware

def update (process : Process P) (index : Nat) (m : Machine P) : Process P where
  machines := process.machines.set index m
  shared := m.shared
  hardware := m.kernel.cpu

def tickIndex? (process : Process P) : Option Nat :=
  process.shared.tickTarget.bind fun number =>
    process.machines.findIdx? (·.kernel.number == number)

inductive Step : Process P → Process P → Prop where
  | move {process : Process P} {index : Nat} {m : Machine P} (move : Move) :
      process.machine? index = some m → m.Allows move →
        Step process (process.update index (m.after move))

inductive Reaches (start : Process P) : Process P → Prop where
  | refl : Reaches start start
  | step {middle finish : Process P} :
      Reaches start middle → Step middle finish → Reaches start finish

end Process

/--
Carry out one operation through another kernel, from start to end.  `fuel` bounds
its steps; the shared state goes there and back.
-/
def Machine.operateThrough (m other : Machine P) (request : Request) (fuel : Nat) :
    Machine P × Machine P :=
  let other := ((other.withShared m.shared).call request).execute fuel
  (m.withShared other.shared, other)

end TickKernel
