import TorusRouting.Epoch.Basic

/-!
# Validity of epochs

What the pass requires of an epoch before it looks at a pipe: ops and buffers on the mesh, sound
allocations, and pipes with both ends present. Ops come first, then buffers, then pipes, each in
table order; the first flaw is reported.
-/

namespace TorusRouting.Epoch

/-- The rectangle of an op is on the mesh. -/
def checkOp (e : Epoch) (op : Op) : Outcome Unit :=
  if e.device.containsRect op.x op.y op.width op.height then .ok ()
  else reject (.placementOutOfGrid op.name op.x op.y op.width op.height
    e.device.gridX e.device.gridY)

/-- A buffer is sound, and on the mesh unless it is a queue in system memory. -/
def checkBuffer (e : Epoch) (b : Buffer) : Outcome Unit := do
  b.check
  if !(b.isQueue && b.core.isSystemMemory) && !e.device.containsCore b.core then
    reject (.bufferOutOfGrid b.id b.core e.device.gridX e.device.gridY)

/-- A pipe has inputs and outputs, its buffers exist, and its cores are on the mesh. -/
def checkPipe (e : Epoch) (p : Pipe) : Outcome Unit := do
  if p.inputs.isEmpty || p.outputs.isEmpty || p.hasIdleStep then
    reject (.emptyPipe p.id)
  (p.inputs ++ p.allOutputs).forM fun id => do let _ ← e.pipeBuffer p id
  match p.cores.find? (!e.device.containsCore ·) with
  | some c => reject (.pipeCoreOutOfGrid p.id c)
  | none => pure ()

/-- Check every entry. -/
def validate (e : Epoch) : Outcome Unit := do
  e.ops.values.forM e.checkOp
  e.buffers.values.forM e.checkBuffer
  e.pipes.values.forM e.checkPipe

end TorusRouting.Epoch
