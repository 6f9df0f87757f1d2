import TorusRouting.Table
import TorusRouting.Mesh.Device
import TorusRouting.Epoch.Buffer
import TorusRouting.Epoch.Op
import TorusRouting.Epoch.Pipe

/-!
# Epochs

One temporal epoch is the unit the pass runs on: a device, the ops placed on it, the buffers, and
the pipes between buffers. Entries refer to each other by name or id only.
-/

namespace TorusRouting

/-- A device with all that is placed on it for one stretch of time. -/
structure Epoch where
  index : UInt64
  device : Device
  ops : Table String Op
  buffers : Table BufferId Buffer
  pipes : Table PipeId Pipe
  deriving DecidableEq, Repr

namespace Epoch

/-- The epoch without entries. -/
def new (index : UInt64) (device : Device) : Epoch := ⟨index, device, .empty, .empty, .empty⟩

/-- Add an op under its name. -/
def addOp (e : Epoch) (op : Op) : Outcome Epoch :=
  if e.ops.contains op.name then reject (.duplicateId .op op.name)
  else .ok { e with ops := e.ops.insert op.name op }

/-- Add a buffer under its id. -/
def addBuffer (e : Epoch) (b : Buffer) : Outcome Epoch :=
  if e.buffers.contains b.id then reject (.duplicateId .buffer (toString b.id.val))
  else .ok { e with buffers := e.buffers.insert b.id b }

/-- Add a pipe under its id. -/
def addPipe (e : Epoch) (p : Pipe) : Outcome Epoch :=
  if e.pipes.contains p.id then reject (.duplicateId .pipe (toString p.id.val))
  else .ok { e with pipes := e.pipes.insert p.id p }

/-- The op with a name. -/
def op (e : Epoch) (name : String) : Outcome Op :=
  match e.ops.get? name with
  | some op => .ok op
  | none => reject (.missingOp name)

/-- The buffer with an id. -/
def buffer (e : Epoch) (id : BufferId) : Outcome Buffer :=
  match e.buffers.get? id with
  | some b => .ok b
  | none => reject (.unknownBuffer id)

/-- The pipe with an id. -/
def pipe (e : Epoch) (id : PipeId) : Outcome Pipe :=
  match e.pipes.get? id with
  | some p => .ok p
  | none => reject (.unknownPipe id)

/-- A buffer that a pipe refers to. -/
def pipeBuffer (e : Epoch) (p : Pipe) (id : BufferId) : Outcome Buffer :=
  match e.buffers.get? id with
  | some b => .ok b
  | none => reject (.missingBuffer p.id id)

/-- Replace the pipe stored under a key. -/
def setPipe (e : Epoch) (id : PipeId) (p : Pipe) : Epoch :=
  { e with pipes := e.pipes.modify id fun _ => p }

/-- Change the allocation of the buffer stored under a key. -/
def setAllocated (e : Epoch) (id : BufferId) (tiles : UInt64) : Epoch :=
  { e with buffers := e.buffers.modify id fun b => { b with allocated := tiles } }

/-- Write the routing of the pipe stored under a key. -/
def assign (e : Epoch) (id : PipeId) (r : Routing) : Outcome Epoch := do
  let p ← e.pipe id
  return e.setPipe id (← p.assign r)

/-- Move the outgoing leg of the pipe stored under a key. -/
def rebalance (e : Epoch) (id : PipeId) (n : Network) : Outcome Epoch := do
  let p ← e.pipe id
  return e.setPipe id (← p.rebalance n)

end Epoch

end TorusRouting
