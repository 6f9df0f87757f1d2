import TorusRouting.CommandLine.RouteFile
import TorusRouting.CommandLine.Synthesize

/-!
# The program

`synth OUT …` synthesizes a file of epochs and `route IN OUT …` routes one.
-/

namespace TorusRouting.CommandLine

/-- Print the text of a result, write its file, and answer with the exit code. -/
def Result.deliver (r : Result) (output : String) : IO UInt32 := do
  IO.print r.stdout
  match r.file with
  | none => return r.code
  | some bytes =>
    try
      IO.FS.writeBinFile output ⟨bytes.toArray⟩
      return r.code
    catch e =>
      IO.eprintln s!"cannot write {output}: {e}"
      return Result.failed.code

/-- The bytes of a file, if it can be read. -/
def readBytes (input : String) : IO (Option (List UInt8)) := do
  try
    return some (← IO.FS.readBinFile input).toList
  catch e =>
    IO.eprintln s!"cannot read {input}: {e}"
    return none

end TorusRouting.CommandLine

open TorusRouting.CommandLine in
/-- One of the two tools, chosen by the first argument. -/
def main (args : List String) : IO UInt32 := do
  match args with
  | "synth" :: args =>
    match Synthesize.parse args with
    | .ok t => t.run.deliver t.output
    | .error r => r.deliver ""
  | "route" :: args =>
    match RouteFile.parse args with
    | .ok t => (t.run (← readBytes t.input)).deliver t.output
    | .error r => r.deliver ""
  | _ => return Result.usage.code
