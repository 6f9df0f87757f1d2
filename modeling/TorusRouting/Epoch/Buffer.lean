import TorusRouting.Word

/-!
# Buffers

A buffer holds tiles on one core, or is the slice of a queue in a DRAM bank or in host memory. A
buffer that is not a queue occupies L1 and is allocated in whole granules.
-/

namespace TorusRouting

/-- What a buffer is used for. -/
inductive BufferKind where
  | opInput
  | opOutput
  | opIntermediate
  | relay
  | prologInter
  | queue
  deriving DecidableEq, Repr, Inhabited

/-- The memory a queue lives in. -/
inductive QueueSite where
  | dram
  | host
  deriving DecidableEq, Repr, Inhabited

/-- The queue that a buffer is a slice of. -/
structure QueueInfo where
  name : String
  site : QueueSite
  /-- Prolog queues are staged into L1 before the epoch starts. -/
  prolog : Bool
  deriving DecidableEq, Repr, Inhabited

/-- The op that a buffer belongs to, and on which side. -/
inductive Owner where
  | producer (op : String)
  | consumer (op : String) (input : UInt64)
  deriving DecidableEq, Repr

/-- The name of the op on either side. -/
def Owner.op : Owner → String
  | producer op => op
  | consumer op _ => op

/-- A slice of memory that pipes read and write, counted in tiles. -/
structure Buffer where
  id : BufferId
  kind : BufferKind
  /-- The owning core, or the place of a queue. -/
  core : Core
  queue : Option QueueInfo
  owner : Option Owner
  tileBytes : UInt64
  /-- Least number of tiles the consumer reads at once. -/
  granule : UInt64
  /-- Tiles that pass through the buffer over the whole epoch. -/
  totalTiles : UInt64
  /-- Tiles allocated for the buffer. -/
  allocated : UInt64
  deriving DecidableEq, Repr, Inhabited

namespace Buffer

/-- Is the buffer a slice of a queue? -/
def isQueue (b : Buffer) : Bool := b.kind == .queue

/-- Is the queue of the buffer staged into L1 before the epoch? -/
def isPrologQueue (b : Buffer) : Bool := b.queue.any (·.prolog)

/-- Bytes allocated, clamped to a word so that an absurd allocation exceeds every budget. -/
def allocatedBytes (b : Buffer) : UInt64 := satMul b.allocated b.tileBytes

/-- Does the buffer occupy L1 on its core? -/
def usesL1 (b : Buffer) : Bool := !b.isQueue && !b.core.isSystemMemory

/-- Does the buffer live in host memory, reached over PCIe? -/
def inHostMemory (b : Buffer) : Bool :=
  b.core.isSystemMemory || b.queue.any (·.site == .host)

/-- Positive granule and tile size, and in L1 a positive number of whole granules. -/
def check (b : Buffer) : Outcome Unit :=
  if b.granule = 0 then reject (.invalidGranule b.id b.granule)
  else if b.tileBytes = 0 then reject (.invalidTileSize b.id)
  else if b.usesL1 && (b.allocated == 0 || b.allocated % b.granule != 0) then
    reject (.granuleMismatch b.id b.allocated b.granule)
  else .ok ()

end Buffer

end TorusRouting
