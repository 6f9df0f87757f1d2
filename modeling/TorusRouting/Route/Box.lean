import TorusRouting.Mesh.Network
import TorusRouting.Mesh.Core

/-!
# Boxes that a route stays inside

A box is an arc along each axis, given in the orientation of `noc0` for both networks. A path fits
when it starts in the box and makes monotonic progress inside it.
-/

namespace TorusRouting

/-- The positions from `first` forward to `last`, around the edge if `last < first`. -/
structure Arc where
  first : UInt32
  last : UInt32
  deriving DecidableEq, Repr, Inhabited

/-- Does a network get from `s` to `d` along the arc? -/
def Arc.fits (a : Arc) (n : Network) (s d : UInt32) : Bool :=
  Ring.onArc a.first.toNat a.last.toNat s.toNat &&
    match n with
    | .noc0 => Ring.onArc s.toNat a.last.toNat d.toNat
    | .noc1 => Ring.onArc a.first.toNat s.toNat d.toNat

/-- The part of the mesh around a producer and a consumer. -/
structure Box where
  x : Arc
  y : Arc
  deriving DecidableEq, Repr, Inhabited

namespace Box

/-- The arc of the box along an axis. -/
def along (b : Box) : Axis → Arc
  | .x => b.x
  | .y => b.y

/-- The box with one arc along the axis and another across it. -/
def ofArcs (a : Axis) (along across : Arc) : Box :=
  match a with
  | .x => ⟨along, across⟩
  | .y => ⟨across, along⟩

/-- Does the path of a network stay inside the box? -/
def fits (b : Box) (n : Network) (src dst : Coord) : Bool :=
  b.x.fits n src.x dst.x && b.y.fits n src.y dst.y

end Box

end TorusRouting
