/-!
# Ticks and elapsed time

Time is counted in ticks and shown as a span of seconds and nanoseconds.  The
conversion saturates: a count too large for the microsecond clock stands at the
clock's last instant.
-/

namespace TickKernel

/-- A span of time: whole seconds and the nanoseconds left over. -/
structure Span where
  secs : UInt64
  nanos : UInt32
  deriving DecidableEq, Repr, Inhabited

def Span.ofMicros (micros : UInt64) : Span where
  secs := micros / 1000000
  nanos := (micros % 1000000).toUInt32 * 1000

/-- The span of seconds and nanoseconds; full seconds of nanoseconds are carried over. -/
def Span.ofParts (secs : UInt64) (nanos : UInt32) : Span where
  secs := secs + (nanos / 1000000000).toUInt64
  nanos := nanos % 1000000000

/-- Product that stays at the greatest word instead of wrapping. -/
def saturatingMul (a b : UInt64) : UInt64 :=
  if a.toNat * b.toNat < UInt64.size then a * b else UInt64.ofNat (UInt64.size - 1)

/-- Ticks counted since a kernel was created, and the period of one. -/
structure TickCounter where
  ticks : UInt64 := 0
  /-- Microseconds per tick. -/
  period : UInt32
  deriving DecidableEq, Repr, Inhabited

namespace TickCounter

def increment (counter : TickCounter) : TickCounter :=
  { counter with ticks := counter.ticks + 1 }

def advance (counter : TickCounter) : Nat → TickCounter
  | 0 => counter
  | count + 1 => counter.increment.advance count

def spanOf (counter : TickCounter) (ticks : UInt64) : Span :=
  Span.ofMicros (saturatingMul ticks counter.period.toUInt64)

def elapsed (counter : TickCounter) : Span :=
  counter.spanOf counter.ticks

@[simp]
theorem ticks_increment (counter : TickCounter) :
    counter.increment.ticks = counter.ticks + 1 :=
  rfl

end TickCounter

end TickKernel
