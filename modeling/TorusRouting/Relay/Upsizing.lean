import TorusRouting.Relay.Greedy
import TorusRouting.Relay.Grouping
import TorusRouting.Relay.Sizes
import TorusRouting.Relay.Targets

/-!
# Upsizing of relay buffers

Relay buffers grow into the spare L1 of their cores, core by core. Running out of L1 is no error:
buffers keep the size they reached.
-/

namespace TorusRouting

variable {σ : Type} [ResourceModel σ]

/-- Grow the candidates of a core. A lone candidate takes the largest size that fits. -/
def Relay.Growth.run (strategy : UpsizeStrategy) (core : Core) (cands : List Candidate) (m : σ) :
    Outcome Unit × Growth σ :=
  match cands, strategy with
  | [c], _ => (.ok (), single c m)
  | cands, .greedy => (.ok (), greedy ((cands.map (·.allocated)).max?.getD 0) ⟨cands, m, []⟩)
  | cands, .proportional =>
    towardsTargets ⟨withTargets (ResourceModel.available m core) cands, m, []⟩

/-- What was added to one buffer. -/
structure BufferUpsize where
  id : BufferId
  core : Core
  tilesAdded : Nat
  bytesAdded : Nat
  deriving DecidableEq, Repr, Inhabited

/-- What was added to the buffers, and what was left for them. -/
structure UpsizeReport where
  /-- Every candidate, grown or not. -/
  buffers : List BufferUpsize := []
  /-- Bytes left on each core with candidates. -/
  available : List (Core × UInt64) := []
  deriving DecidableEq, Repr, Inhabited

namespace UpsizeReport

/-- Tiles added over all buffers; a fault past the largest word. -/
def tilesAdded (r : UpsizeReport) : Outcome Nat := fit64 (total (r.buffers.map (·.tilesAdded)))

/-- Bytes added over all buffers; a fault past the largest word. -/
def bytesAdded (r : UpsizeReport) : Outcome Nat := fit64 (total (r.buffers.map (·.bytesAdded)))

/-- Number of buffers that grew. -/
def grown (r : UpsizeReport) : Nat := r.buffers.countP (0 < ·.tilesAdded)

/-- Fill a text with blanks on the left up to a width. -/
def alignRight (width : Nat) (s : String) : String := "".pushn ' ' (width - s.length) ++ s

private def line (id core tiles bytes : String) : String := s!"{id} {core} -> ({tiles}, {bytes})\n"

/-- The report as text. -/
def text (r : UpsizeReport) : String :=
  let head := line (alignRight 16 "buffer_id") (alignRight 20 "core")
    (alignRight 12 "added_tiles") (alignRight 12 "added_bytes")
  let rows := r.buffers.map fun b =>
    line (toString b.id.val) (alignRight 20 b.core.text)
      ("+" ++ alignRight 11 (toString b.tilesAdded))
      ("+" ++ alignRight 10 (toString b.bytesAdded) ++ "B")
  let left := r.available.map fun (core, bytes) =>
    alignRight 20 core.text ++ " -> " ++ alignRight 11 (toString bytes) ++ "B\n"
  head ++ String.join rows ++ "available L1 on relay buffer cores:\n" ++ String.join left

end UpsizeReport

namespace Epoch

open Relay

/-- The stored buffer as a candidate for growth. -/
def candidate (e : Epoch) (config : Config) (core : Core) (id : BufferId) : Outcome Candidate := do
  let b ← e.buffer id
  if b.tileBytes = 0 then fault .divisionByZero
  let latency := config.latencyBytes.toNat / b.tileBytes.toNat
  return {
    id, core
    sizes := validSizes b.granule.toNat b.totalTiles.toNat latency
    tileBytes := b.tileBytes.toNat
    granule := b.granule.toNat
    allocated := b.allocated.toNat }

/-- Write the moves of a log into the epoch. -/
def replay (e : Epoch) (log : List GrowthStep) : Epoch :=
  log.foldl (fun e s => e.setAllocated s.buffer (UInt64.ofNat s.after)) e

/-- The report row of a candidate that went from `c` to `d`. -/
def upsizeRow (c d : Candidate) : Outcome BufferUpsize := do
  let tiles := d.allocated - c.allocated
  return ⟨c.id, c.core, tiles, ← fit64 (tiles * c.tileBytes)⟩

/-- Grow the listed buffers of one core. A failure leaves the growth made before it. -/
def upsizeCore (e : Epoch) (config : Config) (core : Core) (ids : List BufferId) (m : σ) :
    Outcome (List BufferUpsize) × Epoch × σ :=
  match ids.mapM (e.candidate config core) with
  | .error f => (.error f, e, m)
  | .ok cands =>
    let (result, g) := Growth.run config.strategy core cands m
    let rows := result.bind fun _ => (cands.zip g.cands).mapM fun (c, d) => upsizeRow c d
    (rows, e.replay g.log, g.model)

/-- Grow core by core. A failure leaves the growth made before it. -/
def upsizeCores (config : Config) : List (Core × List BufferId) → UpsizeReport → Epoch → σ →
    Outcome UpsizeReport × Epoch × σ
  | [], r, e, m => (.ok r, e, m)
  | (core, ids) :: cores, r, e, m =>
    match e.upsizeCore config core ids m with
    | (.error f, e, m) => (.error f, e, m)
    | (.ok rows, e, m) =>
      upsizeCores config cores
        ⟨r.buffers ++ rows, r.available ++ [(core, ResourceModel.available m core)]⟩ e m

/-- Grow the relay buffers of an epoch into the L1 that a model has left. -/
def upsize (e : Epoch) (config : Config) (m : σ) : Outcome UpsizeReport × Epoch × σ :=
  match e.relayBuffers config with
  | .error f => (.error f, e, m)
  | .ok cores => upsizeCores config cores {} e m

end Epoch

end TorusRouting
