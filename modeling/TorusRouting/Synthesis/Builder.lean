import TorusRouting.Epoch.Basic
import TorusRouting.Randomness.Draw

/-!
# Building a random epoch

Buffers and pipes are added one at a time with fresh ids. Running out of ids, or asking a list for
an element that it does not have, is a fault.
-/

namespace TorusRouting.Synthesis

open Randomness

/-- An epoch under construction. -/
structure Builder where
  stream : Keystream
  epoch : Epoch
  nextBuffer : UInt64 := 1
  nextPipe : UInt64 := 1

/-- A step of the construction. -/
abbrev Build := ExceptT Failure (StateM Builder)

namespace Build

/-- Draw from the keystream of the builder. -/
def draw {α : Type} (d : Draw α) : Build α := do
  let b ← get
  let (a, stream) ← d.run b.stream
  set { b with stream }
  return a

/-- Change the epoch. -/
def edit (f : Epoch → Outcome Epoch) : Build Unit := do
  let b ← get
  let epoch ← f b.epoch
  set { b with epoch }

/-- The next id of a buffer. -/
def freshBuffer : Build BufferId := do
  let b ← get
  set { b with nextBuffer := ← next64 b.nextBuffer }
  return ⟨b.nextBuffer⟩

/-- The next id of a pipe. -/
def freshPipe : Build PipeId := do
  let b ← get
  set { b with nextPipe := ← next64 b.nextPipe }
  return ⟨b.nextPipe⟩

/-- The element of a list at a position that it must have. -/
def element {α : Type} (l : List α) (i : Nat) : Outcome α :=
  match l[i]? with
  | some a => .ok a
  | none => fault .missingEntry

/-- Any element of a list. -/
def choose {α : Type} (l : List α) : Build α := do
  element l (← draw (below64 l.length))

/-- Add a buffer in L1 with a random shape. -/
def l1Buffer (kind : BufferKind) (core : Core) (owner : Option Owner) : Build BufferId := do
  let id ← freshBuffer
  let tileBytes ← choose [1088, 2080]
  let granule ← choose [1, 2, 4]
  let total := granule * (← choose [8, 16, 32])
  let allocated := granule * UInt64.ofNat (1 + (← draw (below64 2)))
  edit (·.addBuffer ⟨id, kind, core, none, owner, tileBytes, granule, total, allocated⟩)
  return id

/-- Add a queue of random length. -/
def queue (core : Core) (site : QueueSite) (prolog : Bool) : Build BufferId := do
  let id ← freshBuffer
  let tiles ← choose [16, 32, 64]
  edit (·.addBuffer
    ⟨id, .queue, core, some ⟨s!"q{id.val}", site, prolog⟩, none, 1088, 1, tiles, tiles⟩)
  return id

/-- A random bank of a chip. -/
def bank (chip : UInt32) : Build Core := do
  let d := (← get).epoch.device
  let x ← draw (below32 d.gridX.toNat)
  let y ← draw (below32 d.gridY.toNat)
  return ⟨chip, UInt32.ofNat x, UInt32.ofNat y⟩

/-- Add a queue in a random DRAM bank of a chip. -/
def dramQueue (chip : UInt32) (prolog : Bool) : Build BufferId := do
  queue (← bank chip) .dram prolog

/-- Add a pipe. -/
def pipe (inputs : List BufferId) (outputs : List (List BufferId)) (cores : List Core) :
    Build Unit := do
  let id ← freshPipe
  edit (·.addPipe ⟨id, inputs, outputs, cores, none⟩)

/-- Add a pipe from one buffer to another. -/
def unicast (input output : BufferId) (core : Core) : Build Unit :=
  pipe [input] [[output]] [core]

end Build

end TorusRouting.Synthesis
