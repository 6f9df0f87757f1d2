import TorusRouting.Epoch.Op
import TorusRouting.Randomness.Draw

/-!
# Random placement of a chain of ops

Every op of the chain gets its own band of columns, so no two share a core. An op may be asked to
follow its predecessor directly: then the predecessor is a single column right before it, on the
same rows.
-/

namespace TorusRouting.Synthesis

open Randomness

/-- What to synthesize. -/
structure Params where
  seed : UInt64 := 8026727
  gridX : UInt32 := 12
  gridY : UInt32 := 10
  /-- Length of the chain of ops. -/
  ops : UInt64 := 4
  chips : UInt32 := 1
  /-- Put ethernet cores on row `0` and link the chips over them. -/
  ethernet : Bool := false
  l1Bytes : UInt64 := 1499136
  reservedBytes : UInt64 := 204800
  deriving DecidableEq, Repr, Inhabited

namespace Params

/-- The first row for ops. -/
def firstRow (p : Params) : UInt32 := if p.ethernet then 1 else 0

/-- Number of ops: no more than there are columns. -/
def opCount (p : Params) : Nat := min p.ops.toNat p.gridX.toNat

end Params

/-- Which of `n` further ops follow their predecessor directly; never two in a row. -/
def drawAdjacent : (n : Nat) → (previous : Bool) → Draw (List Bool)
  | 0, _ => pure []
  | n + 1, previous => do
    let here ← if previous then pure false else coin .quarter
    return here :: (← drawAdjacent n here)

/-- The rectangle of an op. -/
structure Rect where
  x : UInt32
  y : UInt32
  width : UInt32
  height : UInt32
  deriving DecidableEq, Repr, Inhabited

/-- The space for ops: rows from the first one on, and bands of equal width. -/
structure Space where
  firstRow : UInt32
  rows : UInt32
  /-- Columns of each band. -/
  band : UInt32
  deriving DecidableEq, Repr, Inhabited

/-- The space of a chain of `n` ops. -/
def Params.space (p : Params) (n : Nat) : Outcome Space := do
  let band ← div32 p.gridX (UInt32.ofNat n)
  return ⟨p.firstRow, ← sub32 p.gridY p.firstRow, band⟩

namespace Space

/-- The first column of band `i`. -/
def start (s : Space) (i : Nat) : Outcome UInt32 := mul32 (UInt32.ofNat i) s.band

/-- A rectangle in the band that starts at column `start`, on any rows. -/
def drawRect (s : Space) (start : UInt32) : Draw Rect := do
  let width ← between32 1 s.band
  let height ← between32 1 (min s.rows 4)
  let x ← add32 start (← between32 0 (← sub32 s.band width))
  let y ← add32 s.firstRow (← between32 0 (← sub32 s.rows height))
  return ⟨x, y, width, height⟩

/-- A rectangle at the start of the band, on the rows of the predecessor. -/
def drawRectAfter (s : Space) (start : UInt32) (previous : Option Rect) : Draw Rect := do
  match previous with
  | none => fault .missingEntry
  | some r =>
    let width ← between32 (min s.band 2) s.band
    return ⟨start, r.y, width, r.height⟩

/-- The last column of the band, on the rows of the rectangle. -/
def narrow (s : Space) (start : UInt32) (r : Rect) : Outcome Rect := do
  return { r with x := ← sub32 (← add32 start s.band) 1, width := 1 }

/-- Place ops from band `i` on; the flags tell which of them follow their predecessor directly. -/
def drawRects (s : Space) : (i : Nat) → (previous : Option Rect) → List Bool → Draw (List Rect)
  | _, _, [] => pure []
  | i, previous, follows :: flags => do
    let start ← s.start i
    let r ← if follows then s.drawRectAfter start previous else s.drawRect start
    let r ← if flags.head? = some true then s.narrow start r else pure r
    return r :: (← s.drawRects (i + 1) (some r) flags)

end Space

/-- How an op takes its first input: along rows behind an adjacent producer; else along rows
or columns two times in ten each. -/
def drawBroadcast (follows : Bool) : Draw Broadcast := do
  let n ← below32 10
  return if follows || n ≤ 1 then ⟨true, false, false⟩
    else if n ≤ 3 then ⟨false, true, false⟩
    else {}

/-- An op of the chain before its data paths are drawn. -/
structure Planned where
  rect : Rect
  /-- The predecessor is right before this op. -/
  follows : Bool
  /-- Broadcast of the first input. -/
  broadcast : Broadcast
  deriving DecidableEq, Repr, Inhabited

/-- Draw the chain of ops. -/
def drawPlan (p : Params) : Draw (List Planned) := do
  let flags := false :: (← drawAdjacent (p.opCount - 1) false)
  let rects ← (← p.space flags.length).drawRects 0 none flags
  let broadcasts := {} :: (← flags.tail.mapM drawBroadcast)
  return (rects.zip (flags.zip broadcasts)).map fun (r, f, b) => ⟨r, f, b⟩

/-- Op number `i` of the chain on its rectangle. -/
def Planned.toOp (o : Planned) (i : Nat) (transposed untilizes : Bool) : Op where
  name := s!"op{i}"
  chip := 0
  x := o.rect.x
  y := o.rect.y
  width := o.rect.width
  height := o.rect.height
  transposed := transposed
  untilizes := untilizes
  inputs := [o.broadcast, {}]

/-- The ops of a plan: each transposed one time in five, the last untilizing three times in
ten. -/
def drawOps (plan : List Planned) : Draw (List (Planned × Op)) := do
  let transposed ← plan.mapM fun _ => coin .fifth
  let untilizes ← coin .threeTenths
  return (plan.zip transposed).zipIdx.map fun ((o, t), i) =>
    (o, o.toOp i t (untilizes && i + 1 == plan.length))

end TorusRouting.Synthesis
