import TorusRouting.CommandLine.Help
import TorusRouting.Failure

/-!
# Results of a tool

What a tool does depends only on its arguments and on the bytes of its input file.
-/

namespace TorusRouting.CommandLine

/-- What a tool leaves: an exit code, the text it printed, and the bytes of its output file. -/
structure Result where
  code : UInt32
  stdout : String := ""
  file : Option (List UInt8) := none
  deriving DecidableEq, Repr, Inhabited

namespace Result

/-- Refused arguments. -/
def usage : Result := { code := 2 }

/-- Reading, routing or writing failed. -/
def failed : Result := { code := 1 }

/-- The result of an operation that failed. -/
def ofFailure : Failure → Result
  | .error _ => failed
  | .fault _ => { code := 101 }

end Result

/-- The arguments of a tool, or the result when they end the run. -/
def Tool.start (t : Tool) (args : List String) : Except Result Arguments :=
  match t.read args with
  | .ok a => .ok a
  | .error .usage => .error .usage
  | .error (.help detail) => .error { code := 0, stdout := t.help detail }

end TorusRouting.CommandLine
