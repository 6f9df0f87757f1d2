/-!
# The two on-chip networks

One axis of the mesh is a ring: node `size - 1` is followed by node `0`. Positions are natural
numbers taken modulo the size, so a position off the mesh stands for the node it wraps to. `noc0`
carries traffic towards increasing coordinates and `noc1` towards decreasing ones; both wrap around
the edges of the mesh.
-/

namespace TorusRouting

namespace Ring

/-- Is `n` on the arc that runs forward from `first` to `last`? The arc wraps when
`last < first`. -/
def onArc (first last n : Nat) : Bool :=
  if last < first then first ≤ n || n ≤ last else first ≤ n && n ≤ last

/-- Hops from `a` forward to `b` on a ring of `size` nodes; `0` on the empty ring. -/
def forward (size a b : Nat) : Nat :=
  if size = 0 then 0
  else if a % size ≤ b % size then b % size - a % size
  else size - (a % size - b % size)

/-- Hops from `a` backward to `b` on a ring of `size` nodes. -/
def backward (size a b : Nat) : Nat :=
  match forward size a b with
  | 0 => 0
  | d + 1 => size - (d + 1)

end Ring

/-- One of the two physical on-chip networks. -/
inductive Network where
  | noc0
  | noc1
  deriving DecidableEq, Repr, Inhabited

namespace Network

/-- The network `noc1` when the condition holds, and `noc0` otherwise. -/
def noc1If (cond : Bool) : Network := if cond then noc1 else noc0

/-- The other one of the two networks. -/
def other : Network → Network
  | noc0 => noc1
  | noc1 => noc0

/-- The number of a network in files and reports. -/
def number : Network → Nat
  | noc0 => 0
  | noc1 => 1

/-- The name used in reports. -/
def text (n : Network) : String := s!"NOC{n.number}"

/-- Hops between two positions of a ring, in the direction of the network. -/
def hops (n : Network) (size a b : Nat) : Nat :=
  match n with
  | noc0 => Ring.forward size a b
  | noc1 => Ring.backward size a b

end Network

/-- One value for each network. -/
structure PerNetwork (α : Type) where
  noc0 : α
  noc1 : α
  deriving DecidableEq, Repr, Inhabited

namespace PerNetwork

/-- The value of a network. -/
def get {α : Type} (p : PerNetwork α) : Network → α
  | .noc0 => p.noc0
  | .noc1 => p.noc1

/-- The value of `f` at each network. -/
def ofFn {α : Type} (f : Network → α) : PerNetwork α := ⟨f .noc0, f .noc1⟩

/-- The entry of a network is what the function gives for it. -/
@[simp] theorem get_ofFn {α : Type} (f : Network → α) (n : Network) : (ofFn f).get n = f n := by
  cases n <;> rfl

end PerNetwork

end TorusRouting
