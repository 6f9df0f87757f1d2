import TorusRouting.Mesh.Device
import TorusRouting.Epoch.Op

/-!
# Overlap of two ops

The consumer's cells are walked in order along each axis and compared with the producer's span.
Two ops that overlap along both axes share cores.
-/

namespace TorusRouting

/-- How the consumer's cells lie to the producer's span along one axis. -/
structure Overlap where
  /-- Consumer cells inside the producer's span. -/
  size : Nat := 0
  /-- Consumer cells before the first one inside. -/
  pre : Nat := 0
  /-- Consumer cells outside that come after some cell inside. -/
  post : Nat := 0
  deriving DecidableEq, Repr, Inhabited

namespace Overlap

/-- Take account of cell number `c`. -/
def visit (o : Overlap) (c : Nat) (inside : Bool) : Overlap :=
  if inside then { o with pre := if o.size = 0 then c else o.pre, size := o.size + 1 }
  else if 0 < o.size then { o with post := o.post + 1 }
  else o

/-- Walk `cells` cells from number `c` on. -/
def walk (inside : Nat → Bool) : (cells c : Nat) → Overlap → Overlap
  | 0, _, o => o
  | cells + 1, c, o => walk inside cells (c + 1) (o.visit c (inside c))

/-- Overlap of the `size` cells from `start` on a ring with the producer's span. -/
def measure (producer : Span) (start size grid : UInt32) : Outcome Overlap :=
  if size = 0 then .ok {}
  else if UInt32.size < start.toNat + size.toNat then fault .overflow
  else if grid = 0 then fault .divisionByZero
  else .ok (walk (fun c => Ring.onArc producer.first.toNat producer.last.toNat
    ((start.toNat + c) % grid.toNat)) size.toNat 0 {})

end Overlap

/-- The overlaps of two ops along both axes. -/
structure OpOverlap where
  x : Overlap
  y : Overlap
  deriving DecidableEq, Repr, Inhabited

namespace Device

/-- Overlap of a consumer with a producer along an axis. -/
def axisOverlap (d : Device) (producer consumer : Op) (a : Axis) : Outcome Overlap := do
  Overlap.measure (← producer.span a) (consumer.start a) (consumer.size a) (d.size a)

/-- Overlap of two ops; ops that overlap along both axes are an error. -/
def opOverlap (d : Device) (producer consumer : Op) : Outcome OpOverlap := do
  let x ← d.axisOverlap producer consumer .x
  let y ← d.axisOverlap producer consumer .y
  if 0 < x.size && 0 < y.size then
    reject (.placementOverlap producer.name consumer.name x.size y.size)
  return ⟨x, y⟩

end Device

end TorusRouting
