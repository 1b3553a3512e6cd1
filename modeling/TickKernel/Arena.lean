import TickKernel.Stack

/-!
# Where memory comes from

A simple answer to the kernel's requests for memory: block after block upwards,
with a gap between two of them, and nothing for requests beyond all memory.
-/

namespace TickKernel

/-- Memory that was not given away yet. -/
structure Arena where
  /-- Lowest address of the next block. -/
  next : UInt64 := 0x700000000000
  deriving DecidableEq, Repr, Inhabited

namespace Arena

def exhaustion : UInt64 := 0x1000000000000000

def gap : UInt64 := 64

/--
The answer to a request for a stack of `bytes` bytes: the block's lowest address,
if a block of the rounded size can be described and is to be had.
-/
def answer (arena : Arena) (bytes : UInt64) : Option UInt64 × Arena :=
  match Stack.blockSize bytes with
  | .error _ => (none, arena)
  | .ok size =>
      if exhaustion ≤ size then (none, arena)
      else (some arena.next, ⟨arena.next + size + gap⟩)

end Arena

end TickKernel
