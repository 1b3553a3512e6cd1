import TickKernel.Config

/-!
# Thread identities and states

A thread is named by its table slot.  The last slot belongs to the idle thread,
the context that started the kernel and the fallback when nothing else can run.
-/

namespace TickKernel

/-- A thread is named by its slot in the thread table. -/
abbrev ThreadId := Fin maxThreads

namespace ThreadId

/-- The idle thread owns the last slot. -/
def idle : ThreadId := Fin.last maxCreated

def ofIndex? (index : Nat) : Option ThreadId :=
  if bound : index < maxThreads then some ⟨index, bound⟩ else none

def rangeMessage : String := "thread index out of range"

def all : List ThreadId := List.finRange maxThreads

theorem mem_all (id : ThreadId) : id ∈ all :=
  List.mem_finRange id

end ThreadId

/-- What the scheduler knows about a thread. -/
inductive ThreadState where
  /-- Has the processor. -/
  | running
  /-- Can be dispatched. -/
  | ready
  /-- Blocked until its countdown of ticks ends. -/
  | sleeping
  /-- Blocked until another thread wakes it. -/
  | waiting
  deriving DecidableEq, Repr, Inhabited

namespace ThreadState

def code : ThreadState → UInt8
  | running => 0
  | ready => 1
  | sleeping => 2
  | waiting => 3

def label : ThreadState → String
  | running => "RUNNING"
  | ready => "READY"
  | sleeping => "SLEEPING"
  | waiting => "WAITING"

def isBlocked : ThreadState → Bool
  | sleeping | waiting => true
  | running | ready => false

theorem isBlocked_iff (s : ThreadState) :
    s.isBlocked = true ↔ s = sleeping ∨ s = waiting := by
  cases s <;> simp [isBlocked]

end ThreadState

end TickKernel
