/-!
# Bounded ring

A first-in, first-out buffer of at most `n` elements in `n` slots.  Putting into
a full ring gives up the oldest element, so that the newest is always kept.
`Ring.toList` is the ring's view: the elements, oldest first.
-/

namespace TickKernel

/--
Slots used in turn.  `head` is the next slot to write and `tail` the slot of the
oldest element; they meet when the ring is empty and when it is full, and
`isEmpty` tells the two apart.
-/
structure Ring (α : Type) (n : Nat) where
  slots : Vector (Option α) n
  head : Nat
  tail : Nat
  isEmpty : Bool
  deriving DecidableEq, Repr

namespace Ring

variable {α : Type} {n : Nat}

def empty : Ring α n where
  slots := Vector.replicate n none
  head := 0
  tail := 0
  isEmpty := true

instance : Inhabited (Ring α n) := ⟨empty⟩

/-- The element of a slot, if the slot is there and occupied. -/
def slot (ring : Ring α n) (index : Nat) : Option α :=
  ring.slots[index]?.join

def isFull (ring : Ring α n) : Bool :=
  !ring.isEmpty && ring.head == ring.tail

def size (ring : Ring α n) : Nat :=
  if ring.isEmpty then 0
  else if ring.tail < ring.head then ring.head - ring.tail
  else n - ring.tail + ring.head

def next (n index : Nat) : Nat := (index + 1) % n

def dropOldest (ring : Ring α n) : Ring α n :=
  { ring with
    slots := ring.slots.setIfInBounds ring.tail none
    tail := next n ring.tail }

/--
Append an element.  The result also holds the element given up for it: the
oldest one of a full ring, or the new one itself if the ring has no slots.
-/
def put (ring : Ring α n) (value : α) : Option α × Ring α n :=
  if n = 0 then (some value, ring)
  else
    let evicted := if ring.isFull then ring.slot ring.tail else none
    let room := if ring.isFull then ring.dropOldest else ring
    (evicted,
      { room with
        slots := room.slots.setIfInBounds room.head (some value)
        head := next n room.head
        isEmpty := false })

def get (ring : Ring α n) : Option α × Ring α n :=
  if ring.isEmpty then (none, ring)
  else
    let rest := ring.dropOldest
    (ring.slot ring.tail, { rest with isEmpty := rest.tail == rest.head })

def toList (ring : Ring α n) : List α :=
  (List.range ring.size).filterMap fun offset => ring.slot ((ring.tail + offset) % n)

def contains [BEq α] (ring : Ring α n) (value : α) : Bool :=
  ring.toList.any (· == value)

def reset (_ : Ring α n) : Ring α n := empty

end Ring

end TickKernel
