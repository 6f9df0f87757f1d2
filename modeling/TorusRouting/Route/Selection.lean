import TorusRouting.Config
import TorusRouting.PipeClass
import TorusRouting.Route.Box
import TorusRouting.Route.Overlap

/-!
# Selection of networks and channels

A classified pipe is tried as ethernet, PCIe, write to a queue, read from a queue, read from a
prolog intermediate, and transfer at a relay, in this order; what is left goes from op to op.
Between ops of one chip the network follows from how the rectangles lie to each other, and every
path is checked against the box that network sweeps. Paths outside the box keep the network; the
pipe is then best effort.
-/

namespace TorusRouting

namespace Device

/-- Network and box of two ops that overlap along axis `a` only. When one span contains the
other, the shorter way across decides; otherwise the side on which the consumer sticks out. -/
def overlapRoute (d : Device) (p : PipeId) (a : Axis) (o : Overlap) (producer consumer : Op) :
    Outcome (Network × Box) := do
  let src ← producer.span a
  let dst ← consumer.span a
  let srcAcross ← producer.span a.other
  let dstAcross ← consumer.span a.other
  let sweep (n : Network) : Arc := match n with
    | .noc0 => ⟨srcAcross.first, dstAcross.last⟩
    | .noc1 => ⟨dstAcross.first, srcAcross.last⟩
  let containsDst : Bool := o.size == dst.size.toNat
  if containsDst || o.size == src.size.toNat then
    let grid := (d.size a.other).toNat
    let d0 := Ring.forward grid srcAcross.last.toNat dstAcross.first.toNat
    let d1 := Ring.backward grid srcAcross.first.toNat dstAcross.last.toNat
    let n := Network.noc1If (d1 < d0)
    let outer := if containsDst then src else dst
    return (n, .ofArcs a ⟨outer.first, outer.last⟩ (sweep n))
  if decide (0 < o.pre) == decide (0 < o.post) then
    reject (.geometryInvariant p o.size o.pre o.post)
  if 0 < o.pre then
    return (.noc1, .ofArcs a ⟨dst.first, src.last⟩ (sweep .noc1))
  return (.noc0, .ofArcs a ⟨src.first, dst.last⟩ (sweep .noc0))

/-- Network between two ops of one chip, with the box its paths must fit in. There is no box
when the ops overlap along no axis. -/
def opRoute (d : Device) (p : PipeId) (producer consumer : Op) :
    Outcome (Network × Option Box) := do
  let o ← d.opOverlap producer consumer
  if o.x.size == 0 && o.y.size == 0 then
    let d0 ← d.distance .noc0 (← producer.lastCoord) consumer.firstCoord
    let d1 ← d.distance .noc1 producer.firstCoord (← consumer.lastCoord)
    return (.noc1If (d1 < d0), none)
  let (n, box) ← if 0 < o.x.size then d.overlapRoute p .x o.x producer consumer
    else d.overlapRoute p .y o.y producer consumer
  return (n, some box)

end Device

namespace Epoch

/-- Number of inputs from which the path to `dst` leaves the box. -/
def unfitInputs (e : Epoch) (p : Pipe) (box : Box) (n : Network) (dst : Coord) :
    List BufferId → Outcome Nat
  | [] => .ok 0
  | id :: ids => do
    let b ← e.pipeBuffer p id
    let rest ← e.unfitInputs p box n dst ids
    return if box.fits n b.core.coord dst then rest else rest + 1

/-- Number of paths that leave the box, over the timesteps and their cores. A multicast is
followed to the core that implements the timestep, a unicast to the first output. -/
def unfitPaths (e : Epoch) (p : Pipe) (multicast : Bool) (box : Box) (n : Network) :
    List (List BufferId) → List Core → Outcome Nat
  | [], _ => .ok 0
  | outs :: steps, cores => do
    let some first := outs.head? | reject (.emptyPipe p.id)
    let out ← e.pipeBuffer p first
    let dst := if multicast then (cores.head?).getD out.core else out.core
    let here ← e.unfitInputs p box n dst.coord p.inputs
    let rest ← e.unfitPaths p multicast box n steps cores.tail
    return here + rest

/-- Incoming network and fit of a pipe from op to op. -/
def opToOp (e : Epoch) (p : Pipe) (c : PipeClass) (firstIn firstOut : BufferId)
    (src dst : Coord) : Outcome (Network × Fit) := do
  let some source := c.sourceOp | reject (.missingOwner firstIn)
  let producer ← e.op source
  let some into := c.destOp | reject (.missingOwner firstOut)
  let consumer ← e.op into
  if producer.chip != consumer.chip then
    return (← e.device.nearest src dst, .exact)
  match ← e.device.opRoute p.id producer consumer with
  | (n, none) => return (n, .exact)
  | (n, some box) =>
    let unfit ← word32 (← e.unfitPaths p c.multicast box n p.outputs p.cores)
    return (n, if unfit = 0 then .exact else .bestEffort unfit)

/-- The route of a transfer that is all on the DRAM write channel. -/
def dramRoute (n : Network) : Route := ⟨n, n, .dramWrite, .dramWrite⟩

/-- Route and fit of a classified pipe; no route for an ethernet pipe. -/
def selectRoute (e : Epoch) (config : Config) (p : Pipe) (c : PipeClass)
    (firstIn firstOut : BufferId) (src dst : Core) : Outcome (Option Route × Fit) := do
  let out := Network.noc1If c.noc1
  let outVc := Channel.data c.multicast
  let data (incoming outgoing : Network) : Route := ⟨incoming, outgoing, .unicast, outVc⟩
  if c.ethernet then return (none, .exact)
  if c.pcie then
    -- PCIe only issues writes on the DRAM write channel.
    if c.dest = .queue then return (some (dramRoute .noc0), .exact)
    return (some ⟨.noc0, out, .dramWrite, outVc⟩, .exact)
  if c.dest = .queue then
    if c.untilizes then return (some (dramRoute .noc0), .exact)
    let n ← match config.dram with
      | .proximity => e.device.nearest src.coord dst.coord
      | .fixedSplit => pure .noc1
      | .noRelay => pure .noc0
    return (some (dramRoute n), .exact)
  if c.source = .queue then
    if c.prologQueue then
      if c.dest = .prologInter then return (some (dramRoute .noc0), .exact)
      return (some (data out.other out), .exact)
    let incoming ← match config.dram with
      | .proximity => e.device.nearest src.coord ((p.cores.head?).getD dst).coord
      | .fixedSplit | .noRelay => pure .noc0
    return (some (data incoming (if c.dest = .relay then .noc0 else out)), .exact)
  if c.source = .prologInter then return (some (data out.other out), .exact)
  if c.source = .relay || c.dest = .relay || c.dest = .prologInter then
    return (some (data (← e.device.nearest src.coord dst.coord) out), .exact)
  let (incoming, fit) ← e.opToOp p c firstIn firstOut src.coord dst.coord
  return (some (data incoming out), fit)

/-- The routing of a classified pipe. -/
def select (e : Epoch) (config : Config) (p : Pipe) (c : PipeClass) : Outcome Routing := do
  let some firstIn := p.firstInput? | reject (.emptyPipe p.id)
  let some firstOut := p.firstOutput? | reject (.emptyPipe p.id)
  let src ← e.pipeBuffer p firstIn
  let dst ← e.pipeBuffer p firstOut
  let (route, fit) ← e.selectRoute config p c firstIn firstOut src.core dst.core
  return ⟨route, c.direct, fit, false⟩

end Epoch

end TorusRouting
