import TickKernel.Backend
import TickKernel.Host.Gates

/-!
# The host as a processor

A switch frame on a host holds the entry routine, its argument and the routine
that the carrier starts in.
-/

namespace TickKernel.Host

/-- Bytes kept free for an interrupt frame: eight words. -/
def interruptFrameBytes : UInt64 := 64

instance : Backend Host where
  reserved _ := interruptFrameBytes + 32
  firstFrame _ call := [call.entry, call.argument, startRoutine, 0]
  callOfFrame _ word := if word 2 = startRoutine then some ⟨word 0, word 1⟩ else none
  startTimer host period :=
    if period = 0 then (.error (.invalidPeriod period), host)
    else (.ok (), host.startTimer period)
  switch host next prev :=
    let (known, gates) := host.gates.switch next prev
    (known, { host with gates := gates })
  adopt own _ := own

@[simp]
theorem frameBytes_host (host : Host) : Backend.frameBytes host = 32 :=
  rfl

@[simp]
theorem reserved_host (host : Host) : Backend.reserved host = 96 :=
  rfl

end TickKernel.Host
