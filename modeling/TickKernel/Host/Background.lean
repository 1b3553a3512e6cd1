import TickKernel.Host.Processor
import TickKernel.Kernel.Process

/-!
# The first kernel of a process

Timer interrupts tick the kernel that was started first.  Here that is a kernel
with no threads of its own, so that a tick comes back at once and no other kernel
sees anything of it.
-/

namespace TickKernel

/-- The kernel that was started first. -/
structure Background where
  machine : Machine Host

namespace Background

/-- More steps than an operation takes that does not switch. -/
def fuel : Nat := 1000

/-- A kernel with no threads, started before every other one. -/
def started : Background where
  machine :=
    ((Machine.boot (Kernel.new 0 Config.standard Policy.roundRobin {}) {}).call .start).execute
      fuel

def tickTarget (background : Background) : Option Nat :=
  background.machine.shared.tickTarget

def ticks (background : Background) : UInt64 :=
  background.machine.kernel.ticks.ticks

/-- A tick is dispatched, which is this kernel's if it is the one that interrupts tick. -/
def tickFor (background : Background) (target : Option Nat) : Background :=
  if target = some background.machine.kernel.number then
    ⟨(background.machine.call .tick).execute fuel⟩
  else background

end Background

end TickKernel
