import TorusRouting.CommandLine.Result
import TorusRouting.File.Format
import TorusRouting.Synthesis.Chain

/-!
# The synthesizing tool

It writes a file of random epochs.
-/

namespace TorusRouting.CommandLine

/-- Synthesize epochs `0` to `count - 1` into a file. -/
structure Synthesize where
  output : String
  count : UInt64
  params : Synthesis.Params
  deriving DecidableEq, Repr

namespace Synthesize

namespace Settings

/-- How many epochs. -/
def count : Setting UInt64 := .word64 "num-epochs" "Number of epochs to generate" 1

/-- The seed of the random draws. -/
def seed : Setting UInt64 := .word64 "seed" "" ({} : Synthesis.Params).seed

/-- Columns of the mesh. -/
def gridX : Setting UInt32 := .word32 "grid-size-x" "" ({} : Synthesis.Params).gridX

/-- Rows of the mesh. -/
def gridY : Setting UInt32 := .word32 "grid-size-y" "" ({} : Synthesis.Params).gridY

/-- Length of the chain of ops. -/
def ops : Setting UInt64 :=
  .word64 "num-ops" "Length of the op chain in each epoch" ({} : Synthesis.Params).ops

/-- Number of chips. -/
def chips : Setting UInt32 :=
  .word32 "num-chips" "With more than one chip, the last op also feeds chip 1"
    ({} : Synthesis.Params).chips

end Settings

/-- The tool as it is called. -/
def tool : Tool where
  name := "synth_epoch"
  files := [⟨"OUTPUT", "Output path for the serialized epochs"⟩]
  parameters := [Settings.count.parameter, Settings.seed.parameter, Settings.gridX.parameter,
    Settings.gridY.parameter, Settings.ops.parameter, Settings.chips.parameter,
    .flag "ethernet" "Place ethernet cores on row 0 and link chips through them"]

/-- The call that arguments stand for, or the result that they end with. -/
def parse (args : List String) : Except Result Synthesize := do
  let a ← tool.start args
  let [output] := a.files | .error .usage
  return {
    output
    count := a.get Settings.count
    params := {
      seed := a.get Settings.seed
      gridX := a.get Settings.gridX
      gridY := a.get Settings.gridY
      ops := a.get Settings.ops
      chips := a.get Settings.chips
      ethernet := a.flags.contains "ethernet" } }

/-- Synthesize the epochs one after the other. -/
def run (t : Synthesize) : Result :=
  match (List.range t.count.toNat).mapM fun i => Synthesis.epoch t.params (UInt64.ofNat i) with
  | .ok epochs => { code := 0, file := some (File.write epochs) }
  | .error f => .ofFailure f

end Synthesize

end TorusRouting.CommandLine
