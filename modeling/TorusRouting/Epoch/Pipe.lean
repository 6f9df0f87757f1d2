import TorusRouting.Failure
import TorusRouting.Mesh.Network

/-!
# Pipes and their routing

A pipe gathers its inputs and delivers them over one or more timesteps. Its routing is written
once; after that only the outgoing network may move, and only once.
-/

namespace TorusRouting

/-- Traffic classes of the networks. -/
inductive Channel where
  | dramWrite
  | unicast
  | regUpdate
  | multicast
  deriving DecidableEq, Repr, Inhabited

namespace Channel

/-- Hardware number of the virtual channel. -/
def number : Channel → Nat
  | dramWrite => 0
  | unicast => 2
  | regUpdate => 3
  | multicast => 4

/-- The channel of data between cores. -/
def data (isMulticast : Bool) : Channel := if isMulticast then multicast else unicast

end Channel

/-- Networks and channels of an on-chip pipe. -/
structure Route where
  incoming : Network
  outgoing : Network
  incomingVc : Channel
  outgoingVc : Channel
  deriving DecidableEq, Repr, Inhabited

/-- Whether every path of a pipe makes monotonic progress on its network. -/
inductive Fit where
  | exact
  /-- Some paths leave the box of the network, which is used anyway. -/
  | bestEffort (unfit : UInt32)
  deriving DecidableEq, Repr, Inhabited

/-- What the pass writes into a pipe. -/
structure Routing where
  /-- Absent for ethernet pipes, which never touch the on-chip networks. -/
  route : Option Route
  /-- Sent straight from the producer's buffer to all consumers. -/
  direct : Bool
  fit : Fit
  /-- The outgoing network was moved to even out loopback traffic. -/
  rebalanced : Bool
  deriving DecidableEq, Repr, Inhabited

/-- A transfer from input buffers to output buffers, in timesteps. -/
structure Pipe where
  id : PipeId
  inputs : List BufferId
  /-- Output buffers of each timestep. -/
  outputs : List (List BufferId)
  /-- The core that implements each timestep, as far as decided. -/
  cores : List Core
  routing : Option Routing
  deriving DecidableEq, Repr, Inhabited

namespace Pipe

/-- Number of timesteps. -/
def timesteps (p : Pipe) : Nat := p.outputs.length

/-- Outputs of one timestep; none past the last. -/
def outputsAt (p : Pipe) (t : Nat) : List BufferId := (p.outputs[t]?).getD []

/-- The outputs of all timesteps in order. -/
def allOutputs (p : Pipe) : List BufferId := p.outputs.flatten

/-- The first of the inputs. -/
def firstInput? (p : Pipe) : Option BufferId := p.inputs.head?

/-- The first output of the first timestep. -/
def firstOutput? (p : Pipe) : Option BufferId := (p.outputs.head?).bind List.head?

/-- Does some timestep have no output? -/
def hasIdleStep (p : Pipe) : Bool := p.outputs.any List.isEmpty

/-- Does some timestep have more than one output? -/
def isMulticast (p : Pipe) : Bool := p.outputs.any (1 < ·.length)

/-- The networks and channels of the pipe, once it is routed over the mesh. -/
def route? (p : Pipe) : Option Route := p.routing.bind (·.route)

/-- Write the routing; allowed once. -/
def assign (p : Pipe) (r : Routing) : Outcome Pipe :=
  match p.routing with
  | some _ => reject (.routeAlreadyAssigned p.id)
  | none => .ok { p with routing := some r }

/-- Move the outgoing leg of a routed pipe to another network; allowed once. -/
def rebalance (p : Pipe) (n : Network) : Outcome Pipe :=
  match p.routing with
  | none => reject (.routeNotAssigned p.id)
  | some r =>
    if r.rebalanced then reject (.routeAlreadyAssigned p.id)
    else match r.route with
      | none => reject (.routeNotAssigned p.id)
      | some l =>
        .ok { p with routing := some { r with
          route := some { l with outgoing := n }, rebalanced := true } }

end Pipe

end TorusRouting
