import TorusRouting.Loopback
import TorusRouting.Epoch.Validity
import TorusRouting.Relay.Upsizing
import TorusRouting.Route.Selection

/-!
# The pass

Per epoch: decide the routing of every pipe, write the decisions, balance loopback traffic, grow
relay buffers, then report as text. The epoch that a failed pass leaves behind is part of its
result.
-/

namespace TorusRouting

/-- What was decided for one pipe. -/
structure Decision where
  pipe : PipeId
  cls : PipeClass
  routing : Routing
  deriving DecidableEq, Repr, Inhabited

/-- Counts over the pipes of an epoch. -/
structure RouteStats where
  pipes : Nat
  ethernet : Nat
  pcie : Nat
  /-- Routed pipes per incoming network. -/
  incoming : PerNetwork Nat
  /-- Routed pipes per outgoing network, after balancing. -/
  outgoing : PerNetwork Nat
  direct : Nat
  bestEffort : Nat
  loopbacks : Nat
  loopback : LoopbackStats
  deriving DecidableEq, Repr, Inhabited

/-- What the pass did to an epoch. -/
structure PassReport where
  epoch : UInt64
  routes : RouteStats
  upsize : UpsizeReport
  deriving DecidableEq, Repr, Inhabited

/-- The report as text; a fault when its totals leave the word. -/
def PassReport.text (r : PassReport) : Outcome String := do
  let s := r.routes
  let tiles ← r.upsize.tilesAdded
  let bytes ← r.upsize.bytesAdded
  let pipes := s!"epoch {r.epoch}: {s.pipes} pipes ({s.ethernet} ethernet, {s.pcie} pcie)\n"
  let networks := s!"  incoming noc0/noc1: {s.incoming.noc0}/{s.incoming.noc1}, " ++
    s!"outgoing noc0/noc1: {s.outgoing.noc0}/{s.outgoing.noc1}\n"
  let kinds := s!"  direct multicast: {s.direct}, best effort: {s.bestEffort}\n"
  let loops := s!"  loopbacks: {s.loopbacks}, flipped: {s.loopback.pipesFlipped} " ++
    s!"on {s.loopback.opsRebalanced} ops\n"
  let sizes := s!"  relay upsizing: {r.upsize.grown} of {r.upsize.buffers.length} buffers grown" ++
    s!", +{tiles} tiles, +{bytes}B"
  return pipes ++ networks ++ kinds ++ loops ++ sizes

/-- Whether reports are logged. -/
inductive Logging
  | off
  | on
  deriving DecidableEq, Repr, Inhabited

/-- Log a report as text; without a log its text is never formed. -/
def PassReport.log (r : PassReport) : Logging → Outcome PassReport
  | .off => return r
  | .on => do
    let _ ← r.text
    return r

namespace Epoch

/-- Class and routing of one pipe. -/
def decidePipe (e : Epoch) (config : Config) (oracle : Oracle) (p : Pipe) : Outcome Decision := do
  let cls ← e.classify oracle p
  let routing ← e.select config p cls
  return ⟨p.id, cls, routing⟩

/-- The decisions for all pipes, in table order. -/
def decisions (e : Epoch) (config : Config) (oracle : Oracle) : Outcome (List Decision) :=
  e.pipes.values.mapM (e.decidePipe config oracle)

/-- Write decisions one after the other. -/
def assignAll : List Decision → Epoch → Outcome Unit × Epoch
  | [], e => (.ok (), e)
  | d :: ds, e =>
    match e.assign d.pipe d.routing with
    | .error f => (.error f, e)
    | .ok e => assignAll ds e

/-- Record the pipes that feed ops over the on-chip networks. -/
def tally (ds : List Decision) : Balancer :=
  ds.foldl (fun t d =>
    match d.cls.destOp, d.routing.route with
    | some op, some _ => t.record op d.cls.input d.pipe d.cls.loopback d.cls.multicast
    | _, _ => t) .empty

/-- The counts of decisions and of the epoch they were written to. -/
def routeStats (ds : List Decision) (lb : LoopbackStats) (e : Epoch) : RouteStats :=
  let routes := e.pipes.values.filterMap (·.route?)
  { pipes := ds.length
    ethernet := ds.countP (·.cls.ethernet)
    pcie := ds.countP (·.cls.pcie)
    incoming := .ofFn fun n => routes.countP (·.incoming == n)
    outgoing := .ofFn fun n => routes.countP (·.outgoing == n)
    direct := ds.countP (·.routing.direct)
    bestEffort := ds.countP (·.routing.fit != .exact)
    loopbacks := ds.countP (·.cls.loopback)
    loopback := lb }

/-- Route a valid epoch. -/
def routeValid (e : Epoch) (config : Config) (oracle : Oracle) : Outcome RouteStats × Epoch :=
  match e.decisions config oracle with
  | .error f => (.error f, e)
  | .ok ds =>
    match assignAll ds e with
    | (.error f, e) => (.error f, e)
    | (.ok (), e) =>
      match (tally ds).balance e with
      | (.error f, e) => (.error f, e)
      | (.ok lb, e) => (.ok (routeStats ds lb e), e)

/-- Assign the routing of every pipe and balance loopbacks. -/
def routePipes (e : Epoch) (config : Config) (oracle : Oracle) : Outcome RouteStats × Epoch :=
  match e.validate with
  | .error f => (.error f, e)
  | .ok () => e.routeValid config oracle

/-- Route and upsize a valid epoch, and log the report. -/
def runValid {σ : Type} [ResourceModel σ] (e : Epoch) (config : Config) (oracle : Oracle)
    (logging : Logging) (m : σ) : Outcome PassReport × Epoch × σ :=
  match e.routeValid config oracle with
  | (.error f, e) => (.error f, e, m)
  | (.ok routes, e) =>
    match e.upsize config m with
    | (.error f, e, m) => (.error f, e, m)
    | (.ok upsize, e, m) =>
      (PassReport.log ⟨e.index, routes, upsize⟩ logging, e, m)

/-- The whole pass against a given model. -/
def runWithModel {σ : Type} [ResourceModel σ] (e : Epoch) (config : Config) (oracle : Oracle)
    (logging : Logging) (m : σ) : Outcome PassReport × Epoch × σ :=
  match e.validate with
  | .error f => (.error f, e, m)
  | .ok () => e.runValid config oracle logging m

/-- The whole pass, with the L1 accounted from the epoch's own buffers. -/
def run (e : Epoch) (config : Config) (oracle : Oracle) (logging : Logging) :
    Outcome PassReport × Epoch :=
  match e.validate with
  | .error f => (.error f, e)
  | .ok () =>
    match Ledger.ofEpoch e with
    | .error f => (.error f, e)
    | .ok ledger =>
      let (r, e, _) := e.runValid config oracle logging ledger
      (r, e)

end Epoch

/-- Run the pass on every epoch, each on its own, and gather the reports. -/
def runEpochs (config : Config) (oracle : Oracle) (logging : Logging) (es : List Epoch) :
    Outcome (List PassReport) × List Epoch :=
  let runs := es.map (·.run config oracle logging)
  (gather (runs.map (·.1)), runs.map (·.2))

end TorusRouting
