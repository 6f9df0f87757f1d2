import TorusRouting.CommandLine.Result
import TorusRouting.File.Format
import TorusRouting.Pass

/-!
# The routing tool

It routes the epochs of a file and writes them to another.
-/

namespace TorusRouting.CommandLine

/-- Route the epochs of a file into another. -/
structure RouteFile where
  input : String
  output : String
  config : Config
  deriving DecidableEq, Repr

namespace RouteFile

namespace Settings

/-- How relay buffers share spare L1. -/
def strategy : Setting UpsizeStrategy :=
  .oneOf "upsize-strategy" "How relay buffers on one core share its spare L1"
    [(⟨"greedy", "Grow the smallest buffers first, one valid size at a time"⟩, .greedy),
      (⟨"proportional", "Give each buffer a byte target proportional to its granule"⟩,
        .proportional)]
    ({} : Config).strategy

/-- The network of queue traffic. -/
def dram : Setting DramScheme :=
  .oneOf "dram-routing" "Network selection for DRAM queue reads and writes"
    [(⟨"proximity", "Shortest path between the bank and the core"⟩, .proximity),
      (⟨"fixed-split", "Reads on NOC0, writes on NOC1"⟩, .fixedSplit),
      (⟨"no-relay", "NOC0 for all queue traffic"⟩, .noRelay)]
    ({} : Config).dram

/-- The latency that relay buffers should cover. -/
def minLatencyCycles : Setting UInt64 :=
  .word64 "min-latency-cycles" "Cycles of producer latency a relay buffer should cover"
    ({} : Config).minLatencyCycles

/-- The bandwidth that relay buffers are sized for. -/
def incomingBytesPerCycle : Setting UInt64 :=
  .word64 "incoming-bytes-per-cycle" "Assumed incoming bandwidth, in bytes per cycle"
    ({} : Config).incomingBytesPerCycle

end Settings

/-- The tool as it is called. -/
def tool : Tool where
  name := "route_epoch"
  files := [⟨"EPOCHS", "Input path of the serialized epochs"⟩,
    ⟨"OUTPUT", "Output path for the routed epochs"⟩]
  parameters := [Settings.strategy.parameter,
    .flag "ethernet-only" "Only upsize relay buffers on ethernet cores",
    Settings.dram.parameter, Settings.minLatencyCycles.parameter,
    Settings.incomingBytesPerCycle.parameter]

/-- The call that arguments stand for, or the result that they end with. -/
def parse (args : List String) : Except Result RouteFile := do
  let a ← tool.start args
  let [input, output] := a.files | .error .usage
  return {
    input, output
    config := {
      strategy := a.get Settings.strategy
      ethernetOnly := a.flags.contains "ethernet-only"
      dram := a.get Settings.dram
      minLatencyCycles := a.get Settings.minLatencyCycles
      incomingBytesPerCycle := a.get Settings.incomingBytesPerCycle } }

/-- Route the epochs of the input bytes and print their reports; `none` when the input file cannot
be read. -/
def run (t : RouteFile) (bytes : Option (List UInt8)) : Result :=
  match bytes.map File.read with
  | some (.ok epochs) =>
    let (reports, routed) := runEpochs t.config .adjacent .on epochs
    match reports >>= (·.mapM (·.text)) with
    | .ok texts =>
      { code := 0
        stdout := String.join (texts.map (· ++ "\n"))
        file := some (File.write routed) }
    | .error f => .ofFailure f
  | _ => .failed

end RouteFile

end TorusRouting.CommandLine
