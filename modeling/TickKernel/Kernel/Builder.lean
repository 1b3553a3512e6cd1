import TickKernel.Kernel.Code

/-!
# Thread builder

Collects what a thread is created from, with a value for everything left out.
-/

namespace TickKernel

/-- Bytes of stack for the thread itself when none are asked for. -/
def defaultStackSize : UInt64 := 4096

structure ThreadBuilder where
  name : String := ""
  stackSize : UInt64 := defaultStackSize
  deriving DecidableEq, Repr, Inhabited

namespace ThreadBuilder

def withName (builder : ThreadBuilder) (name : String) : ThreadBuilder :=
  { builder with name := name }

def withStackSize (builder : ThreadBuilder) (stackSize : UInt64) : ThreadBuilder :=
  { builder with stackSize := stackSize }

def create (builder : ThreadBuilder) (call : EntryCall) (block : Option UInt64) : Request :=
  .create builder.name call builder.stackSize block

def spawn (builder : ThreadBuilder) (body : Nat) (block : Option UInt64) : Request :=
  .spawn builder.name body builder.stackSize block

end ThreadBuilder

end TickKernel
