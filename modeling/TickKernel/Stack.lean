import TickKernel.Failure

/-!
# Thread stacks

A stack is one block of memory that grows downwards.  Its size is the requested
one rounded up to the alignment, and the allocator's answer decides where it
lies.  `Memory` holds the words that the kernel itself writes into stacks.
-/

namespace TickKernel

/-- Memory as 64-bit words at byte addresses. -/
structure Memory where
  word : UInt64 → UInt64

namespace Memory

/-- Fresh blocks are zeroed. -/
def blank : Memory := ⟨fun _ => 0⟩

instance : Inhabited Memory := ⟨blank⟩

def write (memory : Memory) (address value : UInt64) : Memory :=
  ⟨fun at' => if at' = address then value else memory.word at'⟩

/-- Consecutive words, eight bytes apart. -/
def writeWords (memory : Memory) (address : UInt64) : List UInt64 → Memory
  | [] => memory
  | value :: rest => (memory.write address value).writeWords (address + 8) rest

def wordAt (memory : Memory) (address : UInt64) (index : Nat) : UInt64 :=
  memory.word (address + 8 * UInt64.ofNat index)

@[simp]
theorem word_write_self (memory : Memory) (address value : UInt64) :
    (memory.write address value).word address = value := by
  simp [write]

theorem word_write_of_ne (memory : Memory) {address other : UInt64} (value : UInt64)
    (h : other ≠ address) : (memory.write address value).word other = memory.word other := by
  simp [write, h]

end Memory

/-- A block of memory that serves as a stack. -/
structure Stack where
  /-- Lowest usable address. -/
  low : UInt64
  /-- Bytes in the block. -/
  size : UInt64
  deriving DecidableEq, Repr, Inhabited

namespace Stack

def alignment : UInt64 := 16

def alignDown (address : UInt64) : UInt64 :=
  address &&& ~~~(alignment - 1)

/-- Largest block that can be described to the allocator. -/
def maxBlock : UInt64 := 9223372036854775792

/--
The block size for a request of `bytes`: rounded up to the alignment.  A request
is refused with its own size if it is empty or cannot be rounded, and with the
rounded size if no block can be that large.
-/
def blockSize (bytes : UInt64) : Except MemoryFailure UInt64 :=
  if UInt64.size ≤ bytes.toNat + (alignment - 1).toNat then .error (.invalidLayout bytes)
  else
    let rounded := alignDown (bytes + (alignment - 1))
    if rounded = 0 then .error (.invalidLayout bytes)
    else if maxBlock < rounded then .error (.invalidLayout rounded)
    else .ok rounded

/--
A stack of at least `bytes` bytes.  `block` is what the allocator answers to the
rounded request: the lowest address of a zeroed block, or nothing.
-/
def allocate (bytes : UInt64) (block : Option UInt64) : Except MemoryFailure Stack :=
  match blockSize bytes with
  | .error cause => .error cause
  | .ok size =>
      match block with
      | none => .error .outOfMemory
      | some low => .ok ⟨low, size⟩

def high (stack : Stack) : UInt64 :=
  alignDown (stack.low + stack.size)

def usage (stack : Stack) (pointer : UInt64) : UInt64 :=
  if pointer ≤ stack.high then stack.high - pointer else 0

def contains (stack : Stack) (address : UInt64) : Bool :=
  stack.low ≤ address && address ≤ stack.high

def frameBase (stack : Stack) (bytes : UInt64) : UInt64 :=
  alignDown (stack.high - bytes)

theorem size_of_allocate {bytes : UInt64} {block : Option UInt64} {stack : Stack}
    (h : allocate bytes block = .ok stack) : blockSize bytes = .ok stack.size := by
  unfold allocate at h
  cases hs : blockSize bytes with
  | error cause => simp [hs] at h
  | ok size =>
      cases block with
      | none => simp [hs] at h
      | some low =>
          simp only [hs, Except.ok.injEq] at h
          subst h
          rfl

end Stack

end TickKernel
