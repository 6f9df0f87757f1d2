import TorusRouting.Config
import TorusRouting.Epoch.Basic

/-!
# Relay buffers by core

The buffers that may grow are grouped by core, cores in the order of their first buffer. On each
core the buffers stand by utilization, the allocation in granules, lowest first. The sort inserts
from the back: every element moves past the larger ones before it and stops behind the first that is
not larger, so equal elements keep their order.
-/

namespace TorusRouting

/-- Insert into a list in descending order, in front of what is not larger. -/
def insertDescending {α : Type} (less : α → α → Bool) (a : α) : List α → List α
  | [] => [a]
  | b :: l => if less a b then b :: insertDescending less a l else a :: b :: l

/-- Sort in ascending order, keeping the order of equal elements. -/
def stableSort {α : Type} (less : α → α → Bool) (l : List α) : List α :=
  (l.foldl (fun sorted a => insertDescending less a sorted) []).reverse

namespace Epoch

/-- May the buffer grow? -/
def mayGrow (e : Epoch) (config : Config) (b : Buffer) : Bool :=
  b.kind == .relay && b.usesL1 && (!config.ethernetOnly || e.device.isEthernetCore b.core)

/-- Group buffers by core, checking each. -/
def groupByCore : List Buffer → Table Core (List BufferId) → Outcome (Table Core (List BufferId))
  | [], cores => .ok cores
  | b :: l, cores => do
    b.check
    groupByCore l (cores.insert b.core ((cores.get? b.core).getD [] ++ [b.id]))

/-- Is `a` allocated fewer granules than `b`? -/
def lessUtilized (a b : Buffer) : Bool :=
  a.allocated.toNat * b.granule.toNat < b.allocated.toNat * a.granule.toNat

/-- The buffer stored under an id that must be present. -/
def storedBuffer (e : Epoch) (id : BufferId) : Outcome Buffer :=
  match e.buffers.get? id with
  | some b => .ok b
  | none => fault .missingEntry

/-- Order buffers by utilization. A single one is not looked up. -/
def byUtilization (e : Epoch) (ids : List BufferId) : Outcome (List BufferId) :=
  if ids.length ≤ 1 then .ok ids
  else do
    let stored ← ids.mapM fun id => do return (id, ← e.storedBuffer id)
    return (stableSort (fun a b => lessUtilized a.2 b.2) stored).map (·.1)

/-- The growing buffers of each core. -/
def relayBuffers (e : Epoch) (config : Config) : Outcome (List (Core × List BufferId)) := do
  let cores ← groupByCore (e.buffers.values.filter (e.mayGrow config)) .empty
  cores.toList.mapM fun (core, ids) => do return (core, ← e.byUtilization ids)

end Epoch

end TorusRouting
