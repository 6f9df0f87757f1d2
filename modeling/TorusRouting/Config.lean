import TorusRouting.Word

/-!
# Policy of the pass
-/

namespace TorusRouting

/-- How relay buffers on one core share its spare L1. -/
inductive UpsizeStrategy where
  /-- Grow the smallest buffers first, one valid size at a time. -/
  | greedy
  /-- Give each buffer a byte target proportional to its granule. -/
  | proportional
  deriving DecidableEq, Repr, Inhabited

/-- Choice of network for pipes that touch DRAM queues. -/
inductive DramScheme where
  /-- Shortest path between the bank and the core. -/
  | proximity
  /-- Reads on `noc0`, writes on `noc1`. -/
  | fixedSplit
  /-- All queue traffic on `noc0`. -/
  | noRelay
  deriving DecidableEq, Repr, Inhabited

/-- What a user can set for the pass. -/
structure Config where
  strategy : UpsizeStrategy := .greedy
  /-- Only grow relay buffers that sit on ethernet cores. -/
  ethernetOnly : Bool := false
  dram : DramScheme := .proximity
  /-- Cycles of producer latency a relay buffer should cover. -/
  minLatencyCycles : UInt64 := 10000
  /-- Bandwidth assumed when sizing relay buffers. -/
  incomingBytesPerCycle : UInt64 := 13
  deriving DecidableEq, Repr, Inhabited

/-- Bytes a relay buffer must hold to hide the latency of its producer. -/
def Config.latencyBytes (c : Config) : UInt64 := satMul c.minLatencyCycles c.incomingBytesPerCycle

end TorusRouting
