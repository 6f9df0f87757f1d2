import TorusRouting.Mesh.Network
import TorusRouting.Word

/-!
# The device

All chips of the cluster share the shape of the mesh, the positions of the ethernet cores and
the L1 size.
-/

namespace TorusRouting

/-- Static description of the chips. -/
structure Device where
  /-- Number of columns. -/
  gridX : UInt32
  /-- Number of rows. -/
  gridY : UInt32
  /-- Ethernet-capable cores, the same on every chip. -/
  ethernet : List Coord
  /-- L1 bytes per core. -/
  l1Bytes : UInt64
  /-- L1 bytes per core held back for firmware and kernels. -/
  reservedBytes : UInt64
  deriving DecidableEq, Repr, Inhabited

namespace Device

/-- Number of nodes of the rings along an axis. -/
def size (d : Device) : Axis → UInt32
  | .x => d.gridX
  | .y => d.gridY

/-- Do the chips have ethernet? -/
def hasEthernet (d : Device) : Bool := !d.ethernet.isEmpty

/-- Does an ethernet channel end at the core? -/
def isEthernetCore (d : Device) (c : Core) : Bool := d.ethernet.contains c.coord

/-- L1 bytes that buffers may use on any core. -/
def l1Budget (d : Device) : UInt64 := satSub d.l1Bytes d.reservedBytes

/-- Is the core on the mesh? -/
def containsCore (d : Device) (c : Core) : Bool := c.x < d.gridX && c.y < d.gridY

/-- Is the rectangle nonempty and on the mesh without wrapping? -/
def containsRect (d : Device) (x y width height : UInt32) : Bool :=
  0 < width && 0 < height &&
    x.toNat + width.toNat ≤ d.gridX.toNat && y.toNat + height.toNat ≤ d.gridY.toNat

/-- Hops of a network between two positions, the sum of both axes. -/
def distance (d : Device) (n : Network) (a b : Coord) : Outcome Nat := do
  let hops := n.hops d.gridX.toNat a.x.toNat b.x.toNat + n.hops d.gridY.toNat a.y.toNat b.y.toNat
  return (← word32 hops).toNat

/-- The network with fewer hops; `noc0` on a tie. -/
def nearest (d : Device) (a b : Coord) : Outcome Network := do
  let d0 ← d.distance .noc0 a b
  let d1 ← d.distance .noc1 a b
  return .noc1If (d1 < d0)

end Device

end TorusRouting
