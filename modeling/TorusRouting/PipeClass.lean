import TorusRouting.Adjacency
import TorusRouting.Epoch.Basic

/-!
# Classes of pipes

The class of a pipe records what sits at its ends and how its data is delivered. The first input
and the first output of the first timestep stand for all buffers on their side.
-/

namespace TorusRouting

/-- What sits at one end of a pipe, as far as routing cares. -/
inductive Endpoint where
  | queue
  | relay
  | prologInter
  | op
  deriving DecidableEq, Repr, Inhabited

/-- Buffers on ethernet cores that are no queues count as relays: no op layout is assumed
for them. -/
def Buffer.endpoint (d : Device) (b : Buffer) : Endpoint :=
  match b.kind with
  | .queue => .queue
  | .relay => .relay
  | .prologInter => if d.isEthernetCore b.core then .relay else .prologInter
  | .opInput | .opOutput | .opIntermediate => if d.isEthernetCore b.core then .relay else .op

/-- What kind of transfer a pipe makes: where it starts and ends, and how it gets into the
consumer. -/
structure PipeClass where
  ethernet : Bool := false
  pcie : Bool := false
  source : Endpoint := .op
  dest : Endpoint := .op
  /-- The source is a queue staged into L1 before the epoch. -/
  prologQueue : Bool := false
  sourceOp : Option String := none
  destOp : Option String := none
  /-- Index of the input of the destination op. -/
  input : UInt64 := 0
  /-- The producer op writes row-major data. -/
  untilizes : Bool := false
  row : Bool := false
  col : Bool := false
  /-- The leg into the consumer op runs on `noc1`. -/
  noc1 : Bool := false
  /-- Sent straight from the producer's buffer. -/
  direct : Bool := false
  /-- Gathered or retimed next to the consumer and sent again. -/
  loopback : Bool := false
  timesteps : Nat := 0
  deriving DecidableEq, Repr, Inhabited

/-- Is the pipe a multicast along a row or a column? -/
def PipeClass.multicast (c : PipeClass) : Bool := c.row || c.col

namespace Epoch

/-- Do all listed inputs of a pipe sit on the core? Stops at the first that does not. -/
def inputsOn (e : Epoch) (p : Pipe) (c : Core) : List BufferId → Outcome Bool
  | [] => .ok true
  | id :: ids => do
    let b ← e.pipeBuffer p id
    if b.core = c then e.inputsOn p c ids else return false

/-- Do all inputs of a pipe sit on one core? -/
def inputsShareCore (e : Epoch) (p : Pipe) : Outcome Bool :=
  match p.inputs with
  | [] => .ok true
  | id :: ids => do
    let b ← e.pipeBuffer p id
    e.inputsOn p b.core ids

/-- A transfer of one buffer into one buffer on another chip, over ethernet links and without
host memory. -/
def isEthernetPipe (e : Epoch) (p : Pipe) (src dst : Buffer) : Bool :=
  e.device.hasEthernet && p.inputs.length == 1 && p.timesteps == 1 &&
    (p.outputsAt 0).length == 1 &&
    !src.inHostMemory && !dst.core.isSystemMemory && src.core.chip != dst.core.chip

/-- The op whose output the source buffer is, when the source is an op. -/
def producerOf (e : Epoch) (src : Buffer) : Outcome (Option Op) :=
  match src.endpoint e.device with
  | .op =>
    match src.owner with
    | some o => do return some (← e.op o.op)
    | none => reject (.missingOwner src.id)
  | _ => .ok none

/-- The op that reads the destination buffer, with the index of the input. -/
def consumerOf (e : Epoch) (dst : Buffer) : Outcome (Op × UInt64) :=
  match dst.owner with
  | some (.consumer op input) => do return (← e.op op, input)
  | _ => reject (.missingOwner dst.id)

/-- Chips that differ without ethernet between them are linked over PCIe. -/
def crossesPcie (e : Epoch) (src dst : Buffer) : Bool :=
  !e.device.hasEthernet && src.core.chip != dst.core.chip

/-- Complete the class of a pipe into an op. -/
def classifyIntoOp (e : Epoch) (oracle : Oracle) (p : Pipe) (producer : Option Op)
    (src dst : Buffer) (base : PipeClass) : Outcome PipeClass := do
  let (consumer, input) ← e.consumerOf dst
  let declared := consumer.broadcast input
  let fansOut : Bool := 1 < (p.outputsAt 0).length
  if fansOut && !declared.row && !declared.col then
    reject (.inconsistentMulticast consumer.name input .undeclared)
  if p.outputs.any fun o => decide (1 < o.length) != fansOut then
    reject (.inconsistentMulticast consumer.name input .uneven)
  let row := declared.row && fansOut
  let col := declared.col && fansOut
  let pcie := base.pcie || e.crossesPcie src dst
  let sameCore ← e.inputsShareCore p
  let answer ← match producer with
    | some op => if pcie then pure none else oracle e.device op consumer ⟨row, col, declared.noc1⟩
    | none => pure none
  let network := if p.timesteps == 1 && sameCore then answer else none
  let noc1 := match network with
    | some n => n == .noc1
    | none => declared.noc1 ||
        (!declared.row && !declared.col && (consumer.transposed ^^ input % 2 == 1))
  return { base with
    pcie, input, row, col, noc1
    destOp := some consumer.name
    direct := network.isSome
    loopback := ((row || col) && network.isNone) || p.timesteps != 1 || !sameCore }

/-- The class of a pipe of an epoch. -/
def classify (e : Epoch) (oracle : Oracle) (p : Pipe) : Outcome PipeClass := do
  let some firstIn := p.firstInput? | reject (.emptyPipe p.id)
  let some firstOut := p.firstOutput? | reject (.emptyPipe p.id)
  if p.hasIdleStep then reject (.emptyPipe p.id)
  let src ← e.pipeBuffer p firstIn
  let dst ← e.pipeBuffer p firstOut
  let source := src.endpoint e.device
  let dest := dst.endpoint e.device
  let ends : PipeClass :=
    { source, dest, prologQueue := src.isPrologQueue, timesteps := p.timesteps }
  if e.isEthernetPipe p src dst then return { ends with ethernet := true }
  let producer ← e.producerOf src
  let base := { ends with
    pcie := source == .queue && src.inHostMemory
    untilizes := producer.any (·.untilizes)
    sourceOp := producer.map (·.name) }
  match dest with
  | .queue => return { base with pcie := base.pcie || dst.inHostMemory || e.crossesPcie src dst }
  | .op => e.classifyIntoOp oracle p producer src dst base
  | .relay | .prologInter => return base

end Epoch

end TorusRouting
