import TorusRouting.Epoch.Basic
import TorusRouting.File.Codec

/-!
# Epoch files

A file is a list of epochs. Bytes after the list are ignored.
-/

namespace TorusRouting.File

namespace Codec

/-- A network is written as its index. -/
def network : Codec Network := oneOf [.noc0, .noc1]

/-- A position is written as its column and its row. -/
def coord : Codec Coord := (word32.pair word32).iso (fun c => (c.x, c.y)) fun (x, y) => ⟨x, y⟩

/-- A core is written as its chip and its position. -/
def core : Codec Core :=
  (word32.pair <| word32.pair word32).iso (fun c => (c.chip, c.x, c.y))
    fun (chip, x, y) => ⟨chip, x, y⟩

/-- A device is written as its grid, its ethernet positions and the sizes of its memory. -/
def device : Codec Device :=
  (word32.pair <| word32.pair <| coord.list.pair <| word64.pair word64).iso
    (fun d => (d.gridX, d.gridY, d.ethernet, d.l1Bytes, d.reservedBytes))
    fun (gridX, gridY, ethernet, l1, reserved) => ⟨gridX, gridY, ethernet, l1, reserved⟩

/-- A broadcast is written as its three flags. -/
def broadcast : Codec Broadcast :=
  (bool.pair <| bool.pair bool).iso (fun b => (b.row, b.col, b.noc1))
    fun (row, col, noc1) => ⟨row, col, noc1⟩

/-- An op is written as its name, its place, its flags and its inputs. -/
def op : Codec Op :=
  (text.pair <| word32.pair <| word32.pair <| word32.pair <| word32.pair <| word32.pair <|
    bool.pair <| bool.pair broadcast.list).iso
    (fun o => (o.name, o.chip, o.x, o.y, o.width, o.height, o.transposed, o.untilizes, o.inputs))
    fun (name, chip, x, y, width, height, transposed, untilizes, inputs) =>
      ⟨name, chip, x, y, width, height, transposed, untilizes, inputs⟩

/-- The id of a buffer is written as its number. -/
def bufferId : Codec BufferId := word64.iso (·.val) BufferId.mk

/-- The id of a pipe is written as its number. -/
def pipeId : Codec PipeId := word64.iso (·.val) PipeId.mk

/-- A kind is written as its index. -/
def bufferKind : Codec BufferKind :=
  oneOf [.opInput, .opOutput, .opIntermediate, .relay, .prologInter, .queue]

/-- A queue is written as its name, its site and whether it is a prolog queue. -/
def queueInfo : Codec QueueInfo :=
  (text.pair <| (oneOf [QueueSite.dram, .host]).pair bool).iso
    (fun q => (q.name, q.site, q.prolog)) fun (name, site, prolog) => ⟨name, site, prolog⟩

/-- An owner is written as its side and its name, a consumer with the input too. -/
def owner : Codec Owner :=
  (either text (text.pair word64)).iso
    (fun o => match o with
      | .producer op => .inl op
      | .consumer op input => .inr (op, input))
    fun v => match v with
      | .inl op => .producer op
      | .inr (op, input) => .consumer op input

/-- A buffer is written as its id, its kind, its core, what it belongs to, and its four counts. -/
def buffer : Codec Buffer :=
  (bufferId.pair <| bufferKind.pair <| core.pair <| queueInfo.option.pair <| owner.option.pair <|
    word64.pair <| word64.pair <| word64.pair word64).iso
    (fun b => (b.id, b.kind, b.core, b.queue, b.owner, b.tileBytes, b.granule, b.totalTiles,
      b.allocated))
    fun (id, kind, core, queue, owner, tileBytes, granule, totalTiles, allocated) =>
      ⟨id, kind, core, queue, owner, tileBytes, granule, totalTiles, allocated⟩

/-- A channel is written as its index. -/
def channel : Codec Channel := oneOf [.dramWrite, .unicast, .regUpdate, .multicast]

/-- A route is written as its two networks and its two channels. -/
def route : Codec Route :=
  (network.pair <| network.pair <| channel.pair channel).iso
    (fun r => (r.incoming, r.outgoing, r.incomingVc, r.outgoingVc))
    fun (incoming, outgoing, incomingVc, outgoingVc) =>
      ⟨incoming, outgoing, incomingVc, outgoingVc⟩

/-- A fit is written as its variant, and a best effort with its count. -/
def fit : Codec Fit :=
  (either unit word32).iso
    (fun f => match f with
      | .exact => .inl ()
      | .bestEffort unfit => .inr unfit)
    fun v => match v with
      | .inl () => .exact
      | .inr unfit => .bestEffort unfit

/-- A routing is written as its route, if there is one, and its flags around the fit. -/
def routing : Codec Routing :=
  (route.option.pair <| bool.pair <| fit.pair bool).iso
    (fun r => (r.route, r.direct, r.fit, r.rebalanced))
    fun (route, direct, fit, rebalanced) => ⟨route, direct, fit, rebalanced⟩

/-- A pipe is written as its id, its ends, its cores and its routing. -/
def pipe : Codec Pipe :=
  (pipeId.pair <| bufferId.list.pair <| bufferId.list.list.pair <| core.list.pair
    routing.option).iso
    (fun p => (p.id, p.inputs, p.outputs, p.cores, p.routing))
    fun (id, inputs, outputs, cores, routing) => ⟨id, inputs, outputs, cores, routing⟩

/-- An epoch is written as its index, its device and its three tables. -/
def epoch : Codec Epoch :=
  (word64.pair <| device.pair <| (table text op).pair <| (table bufferId buffer).pair
    (table pipeId pipe)).iso
    (fun e => (e.index, e.device, e.ops, e.buffers, e.pipes))
    fun (index, device, ops, buffers, pipes) => ⟨index, device, ops, buffers, pipes⟩

end Codec

/-- The bytes of a file. -/
def write (epochs : List Epoch) : List UInt8 := Codec.epoch.list.write epochs

/-- The epochs of a file. -/
def read (bytes : List UInt8) : Except FormatError (List Epoch) := do
  let (epochs, _) ← Codec.epoch.list.read bytes
  return epochs

end TorusRouting.File
