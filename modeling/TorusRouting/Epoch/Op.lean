import TorusRouting.Word

/-!
# Ops

An op runs on a rectangle of cores of one chip and declares, for each of its inputs, whether the
data is broadcast along rows or columns.
-/

namespace TorusRouting

/-- How an op wants one of its inputs broadcast. -/
structure Broadcast where
  row : Bool := false
  col : Bool := false
  /-- The multicast must travel on `noc1`. -/
  noc1 : Bool := false
  deriving DecidableEq, Repr, Inhabited

/-- The cells of an op along one axis. -/
structure Span where
  first : UInt32
  last : UInt32
  size : UInt32
  deriving DecidableEq, Repr, Inhabited

/-- An op on a rectangle of cores of one chip. -/
structure Op where
  name : String
  chip : UInt32
  /-- Leftmost column. -/
  x : UInt32
  /-- Topmost row. -/
  y : UInt32
  width : UInt32
  height : UInt32
  transposed : Bool
  /-- The op writes row-major data; its writer runs on `noc0` only. -/
  untilizes : Bool
  inputs : List Broadcast
  deriving DecidableEq, Repr, Inhabited

namespace Op

/-- First cell along an axis. -/
def start (op : Op) : Axis → UInt32
  | .x => op.x
  | .y => op.y

/-- Number of cells along an axis. -/
def size (op : Op) : Axis → UInt32
  | .x => op.width
  | .y => op.height

/-- Last cell along an axis; a fault for a span that is empty at `0` or leaves the word. -/
def last (op : Op) (a : Axis) : Outcome UInt32 := do
  sub32 (← add32 (op.start a) (op.size a)) 1

/-- The cells of the op along an axis, where they have words. -/
def span (op : Op) (a : Axis) : Outcome Span := do
  return ⟨op.start a, ← op.last a, op.size a⟩

/-- The first core of the rectangle. -/
def firstCoord (op : Op) : Coord := ⟨op.x, op.y⟩

/-- The last core of the rectangle. -/
def lastCoord (op : Op) : Outcome Coord := do
  return ⟨← op.last .x, ← op.last .y⟩

/-- The declared broadcast of an input; none past the declared inputs. -/
def broadcast (op : Op) (input : UInt64) : Broadcast := (op.inputs[input.toNat]?).getD {}

end Op

end TorusRouting
