/-!
# Sizes and configuration

The fixed sizes of a kernel and the two numbers that a kernel is configured with.
-/

namespace TickKernel

/-- Number of table slots, the one of the idle thread included. -/
abbrev maxThreads : Nat := 8

abbrev maxCreated : Nat := maxThreads - 1

/-- Longest thread name kept, in bytes of UTF-8. -/
def maxNameBytes : Nat := 10

/--
What a kernel is configured with.  A statistics interval of zero ticks never
closes, so the dispatch counters then run on.
-/
structure Config where
  /-- Microseconds between two ticks. -/
  tickPeriod : UInt32 := 10000
  /-- Ticks per statistics interval. -/
  statsInterval : UInt32 := 100
  deriving DecidableEq, Repr, Inhabited

namespace Config

def standard : Config := {}

def withTickPeriod (config : Config) (period : UInt32) : Config :=
  { config with tickPeriod := period }

def withStatsInterval (config : Config) (interval : UInt32) : Config :=
  { config with statsInterval := interval }

/-- An interval closes at every positive multiple of its length. -/
def closesInterval (config : Config) (now : UInt64) : Bool :=
  config.statsInterval != 0 && now % config.statsInterval.toUInt64 == 0

end Config

end TickKernel
