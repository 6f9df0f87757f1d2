import TorusRouting.Epoch.Basic
import TorusRouting.Total

/-!
# Balance of loopback traffic

A loopback pipe gathers or retimes data next to the consumer and sends it again, so it loads the
network of its outgoing leg on top of the incoming traffic of the op. Unicast loopbacks may move
their outgoing leg: for each op, half the excess of the busier network moves to the other one, as
far as there are loopbacks to move, in the order of the inputs.
-/

namespace TorusRouting

/-- The pipe recorded for an input of an op. -/
structure Feed where
  pipe : PipeId
  loopback : Bool
  /-- A unicast loopback, free to change its outgoing network. -/
  switchable : Bool
  deriving DecidableEq, Repr, Inhabited

/-- Write the feed of an input into a list in ascending order of inputs, over an earlier one. -/
def Feed.put (i : UInt64) (f : Feed) : List (UInt64 × Feed) → List (UInt64 × Feed)
  | [] => [(i, f)]
  | (j, g) :: l =>
    if i < j then (i, f) :: (j, g) :: l
    else if j < i then (j, g) :: put i f l
    else (i, f) :: l

/-- Traffic into one op, per network. -/
structure Load where
  inputs : PerNetwork UInt32 := ⟨0, 0⟩
  loopbacks : PerNetwork UInt32 := ⟨0, 0⟩
  switchable : PerNetwork UInt32 := ⟨0, 0⟩
  deriving DecidableEq, Repr, Inhabited

/-- Count one more on a network if the condition holds; a fault when the counter is full. -/
def PerNetwork.countIf (p : PerNetwork UInt32) (cond : Bool) (n : Network) :
    Outcome (PerNetwork UInt32) :=
  match cond, n with
  | false, _ => .ok p
  | true, .noc0 => do return { p with noc0 := ← add32 p.noc0 1 }
  | true, .noc1 => do return { p with noc1 := ← add32 p.noc1 1 }

namespace Load

/-- Count a routed feed. -/
def count (l : Load) (f : Feed) (r : Route) : Outcome Load := do
  let inputs ← l.inputs.countIf true r.incoming
  let loopbacks ← l.loopbacks.countIf f.loopback r.outgoing
  let switchable ← l.switchable.countIf (f.loopback && f.switchable) r.outgoing
  return ⟨inputs, loopbacks, switchable⟩

/-- Inputs and loopbacks on a network; a fault when the sum is out of range. -/
def total (l : Load) (n : Network) : Outcome UInt32 := add32 (l.inputs.get n) (l.loopbacks.get n)

/-- Load of `noc0` minus load of `noc1`. -/
def imbalance (l : Load) : Outcome Int := do
  return (← l.total .noc0).toNat - (← l.total .noc1).toNat

/-- The network to move loopbacks off, and how many at most. -/
def excess (l : Load) : Outcome (Option (Network × Nat)) := do
  let d ← l.imbalance
  return if 1 < d ∧ 0 < l.switchable.noc0 then some (.noc0, (d / 2).toNat)
    else if 1 < -d ∧ 0 < l.switchable.noc1 then some (.noc1, (-d / 2).toNat)
    else none

end Load

/-- Outcome of a balancing run. -/
structure LoopbackStats where
  opsRebalanced : Nat := 0
  pipesFlipped : Nat := 0
  deriving DecidableEq, Repr, Inhabited

/-- The feeds of every op. -/
structure Balancer where
  ops : Table String (List (UInt64 × Feed))
  deriving DecidableEq, Repr

namespace Balancer

/-- The balancer without records. -/
def empty : Balancer := ⟨.empty⟩

/-- Remember the pipe that feeds an input; a later record replaces an earlier one. -/
def record (t : Balancer) (op : String) (input : UInt64) (pipe : PipeId)
    (loopback multicast : Bool) : Balancer :=
  ⟨t.ops.insert op (Feed.put input ⟨pipe, loopback, loopback && !multicast⟩
    ((t.ops.get? op).getD []))⟩

/-- Number of recorded loopbacks. -/
def loopbacks (t : Balancer) : Nat :=
  total (t.ops.values.map fun feeds => feeds.countP (·.2.loopback))

/-- Count a feed that has an on-chip route in the epoch. -/
def countFeed (e : Epoch) (l : Load) (f : Feed) : Outcome Load := do
  match (← e.pipe f.pipe).route? with
  | some r => l.count f r
  | none => return l

/-- Load of the listed feeds, counted one after the other. -/
def loadOf (e : Epoch) (feeds : List Feed) : Outcome Load := feeds.foldlM (countFeed e) {}

/-- The feeds of an op in the order of its inputs. -/
def feeds (t : Balancer) (op : String) : List Feed := ((t.ops.get? op).getD []).map (·.2)

/-- Present load of an op. -/
def load (t : Balancer) (e : Epoch) (op : String) : Outcome Load := loadOf e (t.feeds op)

/-- Move up to `count` of the feeds off a network, and count the moves. -/
def flip (off : Network) : (count : Nat) → List Feed → Epoch → Outcome Nat × Epoch
  | 0, _, e => (.ok 0, e)
  | _ + 1, [], e => (.ok 0, e)
  | count + 1, f :: feeds, e =>
    match e.pipe f.pipe with
    | .error x => (.error x, e)
    | .ok p =>
      if p.route?.map (·.outgoing) = some off then
        match p.rebalance off.other with
        | .error x => (.error x, e)
        | .ok p =>
          let (moved, e) := flip off count feeds (e.setPipe f.pipe p)
          (moved.map (· + 1), e)
      else flip off (count + 1) feeds e

/-- Balance the listed ops one after the other. -/
def balanceOps : List (List Feed) → LoopbackStats → Epoch → Outcome LoopbackStats × Epoch
  | [], s, e => (.ok s, e)
  | feeds :: ops, s, e =>
    match loadOf e feeds >>= Load.excess with
    | .error x => (.error x, e)
    | .ok none => balanceOps ops s e
    | .ok (some (off, count)) =>
      match flip off count (feeds.filter (·.switchable)) e with
      | (.error x, e) => (.error x, e)
      | (.ok moved, e) => balanceOps ops ⟨s.opsRebalanced + 1, s.pipesFlipped + moved⟩ e

/-- Even out every recorded op. A failure leaves the moves made before it in the epoch. -/
def balance (t : Balancer) (e : Epoch) : Outcome LoopbackStats × Epoch :=
  balanceOps (t.ops.values.map (·.map (·.2))) {} e

end Balancer

end TorusRouting
