import TorusRouting.Mesh.Device
import TorusRouting.Epoch.Op

/-!
# Adjacent ops and direct multicast

A direct multicast is sent straight out of the producer's buffer to a whole row or column of
consumer cores. Whether two op rectangles allow it is asked of an oracle; `adjacent` is the
oracle that looks at the placement alone.
-/

namespace TorusRouting

/-- Answers with the network of a direct multicast from a producer into a consumer, or with
`none` when there is no such multicast. The broadcast says what the pipe asks for. -/
abbrev Oracle := Device → Op → Op → Broadcast → Outcome (Option Network)

namespace Oracle

/-- The same answer to every question. -/
def constant (answer : Option Network) : Oracle := fun _ _ _ _ => .ok answer

/-- The side on which a one-cell producer touches a consumer on a ring: just before its first
cell, from where `noc0` reaches it, or just after its last, from where `noc1` does. -/
def side (noc1Only : Bool) (grid producer first last : UInt32) : Outcome (Option Network) := do
  let before ← if noc1Only then pure false else do
    pure ((← rem32 (← add32 producer 1) grid) == first)
  if before then return some .noc0
  let next ← rem32 (← add32 last 1) grid
  return if next = producer then some .noc1 else none

/-- Accepts a producer that is one cell thick along the multicast, spans the same lines across
it, and sits right next to the consumer. -/
def adjacent : Oracle := fun d producer consumer ask => do
  if producer.chip != consumer.chip || ask.row == ask.col then return none
  let a : Axis := if ask.row then .x else .y
  if producer.size a != 1 || producer.start a.other != consumer.start a.other ||
      producer.size a.other != consumer.size a.other then
    return none
  let last ← consumer.last a
  side ask.noc1 (d.size a) (producer.start a) (consumer.start a) last

end Oracle

end TorusRouting
