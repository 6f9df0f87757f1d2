import TorusRouting.Epoch.Basic

/-!
# L1 accounting

Growth asks a resource model for the bytes it needs. The ledger is the model that counts the bytes
of every core against one capacity.
-/

namespace TorusRouting

/-- What growth needs to know about the L1 of the cores. A refused reservation may change the
model as well. -/
class ResourceModel (σ : Type) where
  /-- Bytes left on a core. -/
  available : σ → Core → UInt64
  /-- Take bytes of a core. -/
  reserve : σ → Core → UInt64 → Except CapacityError Unit × σ

/-- Bytes in use on every core. -/
structure Ledger where
  capacity : UInt64
  used : Table Core UInt64
  deriving DecidableEq, Repr

namespace Ledger

/-- Nothing in use on any core. -/
def empty (capacity : UInt64) : Ledger := ⟨capacity, .empty⟩

/-- Bytes in use on a core. -/
def allocated (l : Ledger) (c : Core) : UInt64 := (l.used.get? c).getD 0

/-- Bytes left on a core. -/
def available (l : Ledger) (c : Core) : UInt64 := satSub l.capacity (l.allocated c)

/-- Take bytes of a core, unless fewer are left. -/
def reserve (l : Ledger) (c : Core) (bytes : UInt64) : Except CapacityError Unit × Ledger :=
  if l.available c < bytes then (.error ⟨c, bytes, l.available c⟩, l)
  else (.ok (), { l with used := l.used.insert c (l.allocated c + bytes) })

instance : ResourceModel Ledger := ⟨available, reserve⟩

/-- Add the bytes of a buffer to its core. -/
def charge (used : Table Core UInt64) (b : Buffer) : Table Core UInt64 :=
  used.insert b.core (satAdd ((used.get? b.core).getD 0) b.allocatedBytes)

/-- Account the L1 buffers of an epoch against the budget of its device. -/
def ofEpoch (e : Epoch) : Outcome Ledger :=
  let capacity := e.device.l1Budget
  let used := (e.buffers.values.filter (·.usesL1)).foldl charge .empty
  match used.toList.find? (capacity < ·.2) with
  | some (core, bytes) => reject (.initialOverflow core bytes capacity)
  | none => .ok ⟨capacity, used⟩

end Ledger

/-- The model with no L1 left anywhere: it refuses every reservation, even an empty one. -/
structure FullL1 where
  deriving DecidableEq, Repr

instance : ResourceModel FullL1 := ⟨fun _ _ => 0, fun m c bytes => (.error ⟨c, bytes, 0⟩, m)⟩

end TorusRouting
