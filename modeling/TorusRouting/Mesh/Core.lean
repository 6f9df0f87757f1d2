/-!
# Coordinates and cores

A core is a position on the mesh of one chip. The position `(255, 255)` stands for host system
memory, which is reached over PCIe.
-/

namespace TorusRouting

/-- A direction of the mesh. -/
inductive Axis where
  | x
  | y
  deriving DecidableEq, Repr, Inhabited

/-- The axis across. -/
def Axis.other : Axis → Axis
  | x => y
  | y => x

/-- A position on the mesh of one chip. -/
structure Coord where
  x : UInt32
  y : UInt32
  deriving DecidableEq, Repr, Inhabited

/-- The coordinate along an axis. -/
def Coord.along (c : Coord) : Axis → UInt32
  | .x => c.x
  | .y => c.y

/-- A core on a specific chip of the cluster. -/
structure Core where
  chip : UInt32
  x : UInt32
  y : UInt32
  deriving DecidableEq, Repr, Inhabited

namespace Core

/-- The position on the mesh of its chip. -/
def coord (c : Core) : Coord := ⟨c.x, c.y⟩

/-- Host system memory in place of a real core. -/
def isSystemMemory (c : Core) : Bool := c.x == 255 && c.y == 255

/-- The form used in messages and reports. -/
def text (c : Core) : String := s!"(c={c.chip},y={c.y},x={c.x})"

end Core

end TorusRouting
