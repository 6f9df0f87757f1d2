import TorusRouting.Synthesis.Builder
import TorusRouting.Synthesis.Placement

/-!
# Random epochs

The ops form a chain. Every op reads its first input from its predecessor, or from DRAM at the start
of the chain, and its second input from DRAM; the last op writes to DRAM. With several chips the
last op also feeds the next chip, over ethernet or through host memory.
-/

namespace TorusRouting.Synthesis

open Randomness Build

/-- A core of an op with its buffers. -/
structure Slot where
  core : Core
  output : BufferId
  /-- Buffer of the first input. -/
  first : BufferId
  /-- Buffer of the second input. -/
  second : BufferId
  deriving DecidableEq, Repr, Inhabited

/-- The lines of an op along an axis; a fault when they leave the word. -/
def linesOf (op : Op) (a : Axis) : Outcome (List UInt32) := do
  let first := (op.start a).toNat
  let last := (← op.last a).toNat
  return (List.range (last + 1 - first)).map fun i => UInt32.ofNat (first + i)

/-- The cores of an op, row by row. -/
def coresOf (op : Op) : Outcome (List Core) := do
  let rows ← (← linesOf op .y).mapM fun y => do
    return (← linesOf op .x).map fun x => (⟨op.chip, x, y⟩ : Core)
  return rows.flatten

/-- Add an op and the buffers of its cores. -/
def addOp (op : Op) : Build (List Slot) := do
  edit (·.addOp op)
  (← coresOf op).mapM fun core => do
    let output ← l1Buffer .opOutput core (some (.producer op.name))
    let first ← l1Buffer .opInput core (some (.consumer op.name 0))
    let second ← l1Buffer .opInput core (some (.consumer op.name 1))
    return ⟨core, output, first, second⟩

/-- Feed the second input of a core from DRAM, through L1 for some of the prolog queues. -/
def feedSecond (s : Slot) : Build Unit := do
  let prolog ← draw (coin .threeTenths)
  let q ← dramQueue 0 prolog
  let staged ← if prolog then draw (coin .half) else pure false
  if staged then
    let inter ← l1Buffer .prologInter s.core none
    unicast q inter s.core
    unicast inter s.second s.core
  else unicast q s.second s.core

/-- Feed the first input of a core from DRAM. -/
def feedFirst (s : Slot) : Build Unit := do
  let q ← dramQueue 0 false
  unicast q s.first s.core

/-- One multicast into the cores of a consumer along one line of an axis. An adjacent producer
sends it from its own core of that row. -/
def connectLine (follows : Bool) (a : Axis) (producer consumer : List Slot) (n : UInt32) :
    Build Unit := do
  let members := consumer.filter (·.core.coord.along a == n)
  let src ← if follows then
      element producer ((producer.findIdx? (·.core.y == n)).getD 0)
    else choose producer
  pipe [src.output] [members.map (·.first)] [(← element members 0).core]

/-- One multicast into each row, or each column, of the consumer. -/
def connectLines (o : Planned) (op : Op) (producer consumer : List Slot) : Build Unit := do
  let a : Axis := if o.broadcast.row then .y else .x
  (← linesOf op a).forM (connectLine o.follows a producer consumer)

/-- A gather, a relayed transfer or a plain one into the first input of a core. -/
def connectCore (producer : List Slot) (s : Slot) : Build Unit := do
  let n ← draw (below32 20)
  if n ≤ 2 && 1 < producer.length then
    let i ← draw (below64 producer.length)
    let one ← element producer i
    let two ← element producer ((i + 1) % producer.length)
    pipe [one.output, two.output] [[s.first]] [s.core]
  else if 3 ≤ n && n ≤ 7 then
    let src ← choose producer
    let relay ← l1Buffer .relay s.core none
    unicast src.output relay s.core
    unicast relay s.first s.core
  else
    let src ← choose producer
    unicast src.output s.first s.core

/-- The pipes from one op into the first input of the next. -/
def connect (o : Planned) (op : Op) (producer consumer : List Slot) : Build Unit := do
  if o.broadcast.row || o.broadcast.col then
    connectLines o op producer consumer
  else
    let scatter ← if 1 < consumer.length then draw (coin .fifth) else pure false
    if scatter then
      let src ← choose producer
      pipe [src.output] (consumer.map ([·.first])) (consumer.map (·.core))
    else consumer.forM (connectCore producer)

/-- An op of the chain with the slots of its cores. -/
abbrev Link := (Planned × Op) × List Slot

/-- Feed the inputs of every op after the given one. -/
def connectChain : (previous : List Slot) → List Link → Build Unit
  | _, [] => pure ()
  | previous, ((o, op), slots) :: chain => do
    slots.forM feedSecond
    connect o op previous slots
    connectChain slots chain

/-- Write the output of a core to DRAM. -/
def drain (s : Slot) : Build Unit := do
  let q ← dramQueue 0 false
  unicast s.output q s.core

/-- Link a core to the next chip over the first ethernet core. -/
def linkOverEthernet (s : Slot) : Build Unit := do
  let eth ← element (← get).epoch.device.ethernet 0
  let near : Core := ⟨0, eth.x, eth.y⟩
  let far : Core := ⟨1, eth.x, eth.y⟩
  let tx ← l1Buffer .relay near none
  let rx ← l1Buffer .relay far none
  unicast s.output tx s.core
  unicast tx rx near
  let q ← dramQueue 1 false
  unicast rx q far

/-- Link a core to the next chip through host memory. -/
def linkOverHost (s : Slot) : Build Unit := do
  let q ← queue ⟨0, 255, 255⟩ .host false
  unicast s.output q s.core
  let q ← dramQueue 1 false
  unicast s.output q s.core

/-- Deliver the outputs of the last op to DRAM and, with several chips, to the next one. -/
def deliver (p : Params) (last : List Slot) : Build Unit := do
  last.forM drain
  if 1 < p.chips then
    let s ← element last 0
    if p.ethernet then linkOverEthernet s else linkOverHost s

/-- Build the whole chain. -/
def buildChain (p : Params) (ops : List (Planned × Op)) : Build Unit := do
  let chain ← ops.mapM fun x => do return (x, ← addOp x.2)
  let first := (← element chain 0).2
  first.forM feedSecond
  first.forM feedFirst
  connectChain first chain.tail
  deliver p (← element chain (chain.length - 1)).2

/-- The device of an epoch: with ethernet, every other core of row `0` has a link. -/
def Params.device (p : Params) : Device where
  gridX := p.gridX
  gridY := p.gridY
  ethernet := if p.ethernet then
      (List.range ((p.gridX.toNat + 1) / 2)).map fun i => ⟨UInt32.ofNat (2 * i), 0⟩
    else []
  l1Bytes := p.l1Bytes
  reservedBytes := p.reservedBytes

/-- Is there no op, or no row to place ops on? -/
def Params.isEmpty (p : Params) : Bool := p.opCount = 0 || p.gridY ≤ p.firstRow

/-- The epoch of the given index that is drawn from a keystream. Without ops, or rows to place them
on, it is empty. -/
def epochFrom (p : Params) (index : UInt64) (stream : Keystream) : Outcome Epoch := do
  let device := p.device
  if p.isEmpty then return .new index device
  let (ops, stream) ← (do drawOps (← drawPlan p) : Draw _).run stream
  let (result, b) := (buildChain p ops).run.run { stream, epoch := .new index device }
  result
  return b.epoch

/-- The epoch of the given index; the same parameters and index give the same epoch. -/
def epoch (p : Params) (index : UInt64) : Outcome Epoch :=
  epochFrom p index (.ofSeed (p.seed + index))

end TorusRouting.Synthesis
