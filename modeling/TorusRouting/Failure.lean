import TorusRouting.Mesh.Core

/-!
# How an operation can fail

A `RouteError` says that an epoch is inconsistent, and stops its pass. A `Fault` says that a
quantity left the range of its machine word, that something was divided by zero, that an entry
promised by the caller is absent, or that there is nothing to draw from. A refused reservation is
neither: growth just stops. Buffers and pipes are named by their ids.
-/

namespace TorusRouting

/-- Identifies a buffer of an epoch. -/
structure BufferId where
  val : UInt64
  deriving DecidableEq, Repr, Inhabited

/-- Identifies a pipe of an epoch. -/
structure PipeId where
  val : UInt64
  deriving DecidableEq, Repr, Inhabited

/-- A reservation that exceeds what is left on a core. -/
structure CapacityError where
  core : Core
  requested : UInt64
  available : UInt64
  deriving DecidableEq, Repr

/-- The text of a refusal. -/
def CapacityError.message (e : CapacityError) : String :=
  s!"core {e.core.text}: cannot reserve {e.requested} bytes, only {e.available} available"

/-- The kinds of entry an epoch holds. -/
inductive EntryKind where
  | op
  | buffer
  | pipe
  deriving DecidableEq, Repr

/-- The kind as errors name it. -/
def EntryKind.text : EntryKind → String
  | op => "op"
  | buffer => "buffer"
  | pipe => "pipe"

/-- What is wrong with the outputs of a pipe into an op. -/
inductive MulticastFlaw where
  /-- Several outputs at once into an input that declares no multicast. -/
  | undeclared
  /-- Timesteps that differ in being multicast. -/
  | uneven
  deriving DecidableEq, Repr

/-- The flaw as errors name it. -/
def MulticastFlaw.text : MulticastFlaw → String
  | undeclared => "illegal pipe multicast output"
  | uneven => "phased pipe with inconsistent output multicast"

/-- Inconsistencies of an epoch. -/
inductive RouteError where
  /-- Producer and consumer share cores. -/
  | placementOverlap (producer consumer : String) (xOverlap yOverlap : Nat)
  /-- An op rectangle sticks out of the mesh. -/
  | placementOutOfGrid (op : String) (x y width height gridX gridY : UInt32)
  /-- A buffer off the mesh that is not a queue in system memory. -/
  | bufferOutOfGrid (buffer : BufferId) (core : Core) (gridX gridY : UInt32)
  | pipeCoreOutOfGrid (pipe : PipeId) (core : Core)
  /-- A partial overlap that no pair of spans on the mesh has. -/
  | geometryInvariant (pipe : PipeId) (size before after : Nat)
  | missingBuffer (pipe : PipeId) (buffer : BufferId)
  | unknownBuffer (buffer : BufferId)
  | unknownPipe (pipe : PipeId)
  | missingOp (name : String)
  /-- A buffer of an op that does not say which op. -/
  | missingOwner (buffer : BufferId)
  | emptyPipe (pipe : PipeId)
  | invalidGranule (buffer : BufferId) (granule : UInt64)
  | granuleMismatch (buffer : BufferId) (allocated granule : UInt64)
  | invalidTileSize (buffer : BufferId)
  | inconsistentMulticast (op : String) (input : UInt64) (flaw : MulticastFlaw)
  | duplicateId (kind : EntryKind) (id : String)
  | routeAlreadyAssigned (pipe : PipeId)
  | routeNotAssigned (pipe : PipeId)
  /-- The buffers of a core exceed its budget from the start. -/
  | initialOverflow (core : Core) (allocated capacity : UInt64)
  deriving DecidableEq, Repr

/-- The text of an error. -/
def RouteError.message : RouteError → String
  | placementOverlap p c x y =>
    s!"ops {p} and {c} overlap on both axes (x overlap {x}, y overlap {y})"
  | placementOutOfGrid op x y w h gx gy =>
    s!"op {op} grid at ({x}, {y}) of size {w}x{h} exceeds the {gx}x{gy} core mesh"
  | bufferOutOfGrid b c gx gy =>
    s!"buffer {b.val} at {c.text} lies outside the {gx}x{gy} core mesh"
  | pipeCoreOutOfGrid p c =>
    s!"pipe {p.val}: multicast location {c.text} lies outside the core mesh"
  | geometryInvariant p size pre post =>
    s!"pipe {p.val}: partial overlap of size {size} with {pre} cells before and {post} after"
  | missingBuffer p b => s!"pipe {p.val} references missing buffer {b.val}"
  | unknownBuffer b => s!"unknown buffer {b.val}"
  | unknownPipe p => s!"unknown pipe {p.val}"
  | missingOp name => s!"unknown op {name}"
  | missingOwner b => s!"buffer {b.val} belongs to an op but carries no owner metadata"
  | emptyPipe p => s!"pipe {p.val} has no inputs or no outputs"
  | invalidGranule b g =>
    s!"buffer {b.val}: scatter/gather granularity must be positive, got {g}"
  | granuleMismatch b a g =>
    s!"buffer {b.val}: allocated {a} tiles is not a positive multiple of granule {g}"
  | invalidTileSize b => s!"buffer {b.val}: tile size must be positive"
  | inconsistentMulticast op i flaw => s!"op {op} input {i}: {flaw.text}"
  | duplicateId kind id => s!"duplicate {kind.text} id {id}"
  | routeAlreadyAssigned p => s!"pipe {p.val} already has its routing assigned"
  | routeNotAssigned p => s!"pipe {p.val} has no on-chip network routing to rebalance"
  | initialOverflow c a cap =>
    s!"core {c.text}: {a} bytes allocated upstream exceed the {cap} byte budget"

/-- Broken preconditions of the arithmetic and of table lookups. -/
inductive Fault where
  | overflow
  | divisionByZero
  | missingEntry
  /-- A random number from an empty range. -/
  | emptyRange
  deriving DecidableEq, Repr

/-- Why an operation gave no result. -/
inductive Failure where
  | error (e : RouteError)
  | fault (f : Fault)
  deriving DecidableEq, Repr

/-- The result of an operation that may fail. -/
abbrev Outcome (α : Type) := Except Failure α

/-- Stop with an error. -/
def reject {α : Type} (e : RouteError) : Outcome α := .error (.error e)

/-- Stop with a fault. -/
def fault {α : Type} (f : Fault) : Outcome α := .error (.fault f)

/-- The fault of a result, if it is one. -/
def Outcome.fault? {α : Type} : Outcome α → Option Fault
  | .error (.fault f) => some f
  | _ => none

/-- The values of independent results, in order. A fault among them stands for all; otherwise the
first error does. -/
def gather {α : Type} (results : List (Outcome α)) : Outcome (List α) :=
  match results.findSome? Outcome.fault? with
  | some f => fault f
  | none => results.mapM id

end TorusRouting
