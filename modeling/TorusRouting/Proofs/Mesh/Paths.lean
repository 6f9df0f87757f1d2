import TorusRouting.Proofs.Mesh.Closest
import TorusRouting.Proofs.Mesh.Walk

/-!
# Paths inside a box

A network gets from node to node of a ring hop by hop, and an arc holds the nodes that `noc0` visits
on the way from its first node to its last. A node is on a path if it is no further from the start
than the end of the path is. So whether a path keeps to an arc is a matter of comparing hop counts,
and the test of a box, which only compares coordinates, agrees with it around the edge of the mesh
and on arcs that cover a whole ring.
-/

namespace TorusRouting

namespace Network

variable {n : Network} {size s d v k : Nat}

/-- The nodes that a network visits on its way from `s` to `d`, both included. -/
def path (n : Network) (size s d : Nat) : List Nat :=
  List.iterate (n.hop size) s (n.hops size s d + 1)

/-- The nodes that a network leaves with a hop on its way from `s` to `d`. -/
def departures (n : Network) (size s d : Nat) : List Nat :=
  List.iterate (n.hop size) s (n.hops size s d)

private theorem iterate_hop (hs : s < size) (hk : k ≤ size) :
    (n.hop size)^[k] s = n.ahead size s k := by
  induction k with
  | zero => exact (ahead_zero hs).symm
  | succ k ih => rw [Function.iterate_succ_apply', ih (by omega), hop_ahead hs hk]

/-- The node that is `k` hops ahead is the one that takes `k` hops. -/
theorem eq_ahead_iff (hs : s < size) (hv : v < size) (hk : k < size) :
    v = n.ahead size s k ↔ n.hops size s v = k := by
  cases n with
  | noc0 =>
    simp only [ahead, hops, Ring.forward_eq hs hv]
    split_ifs <;> omega
  | noc1 =>
    simp only [ahead, hops, Ring.backward_eq hs hv]
    split_ifs <;> omega

/-- The first nodes of a walk are the ones that take fewest hops. -/
theorem mem_iterate_hop (hs : s < size) (hk : k ≤ size) :
    v ∈ List.iterate (n.hop size) s k ↔ v < size ∧ n.hops size s v < k := by
  rw [List.mem_iterate]
  constructor
  · rintro ⟨j, hj, rfl⟩
    rw [iterate_hop hs (by omega)]
    have hv := n.ahead_lt hs (show j ≤ size by omega)
    refine ⟨hv, ?_⟩
    rwa [(eq_ahead_iff hs hv (by omega)).1 rfl]
  · rintro ⟨hv, hlt⟩
    refine ⟨_, hlt, ?_⟩
    rw [iterate_hop hs (by omega)]
    exact (eq_ahead_iff hs hv (by omega)).2 rfl

/-- A node is visited if it is no further ahead than the destination. -/
theorem mem_path (hs : s < size) : v ∈ n.path size s d ↔
    v < size ∧ n.hops size s v ≤ n.hops size s d := by
  have hle := n.hops_le size s d
  rw [path, mem_iterate_hop hs (by omega), Nat.lt_succ_iff]

/-- A node is left if it is not as far ahead as the destination. -/
theorem mem_departures (hs : s < size) : v ∈ n.departures size s d ↔
    v < size ∧ n.hops size s v < n.hops size s d := by
  have hle := n.hops_le size s d
  exact mem_iterate_hop hs (by omega)

/-- A path ends at its destination. -/
theorem getLast?_path (hs : s < size) (hd : d < size) :
    (n.path size s d).getLast? = some d := by
  have hle := n.hops_le size s d
  rw [path, List.getLast?_eq_getElem?, List.length_iterate, Nat.add_sub_cancel,
    List.getElem?_iterate _ _ _ _ (Nat.lt_succ_self _), iterate_hop hs (by omega)]
  exact congrArg some ((eq_ahead_iff hs hd (by omega)).2 rfl).symm

end Network

/-- A node is on an arc if it is no further ahead of the first node than the last node is. -/
theorem Ring.onArc_iff_forward_le {size first last v : Nat} (hf : first < size) (hl : last < size)
    (hv : v < size) :
    onArc first last v = true ↔ forward size first v ≤ forward size first last := by
  rw [forward_eq hf hv, forward_eq hf hl]
  rcases Nat.lt_or_ge last first with hlt | hle
  · rw [Arc.onArc_iff_of_lt hlt]
    split_ifs <;> omega
  · rw [Arc.onArc_iff_of_le hle]
    split_ifs <;> omega

/-- A detour over a third node takes no hop more, or once around the ring. -/
theorem Ring.forward_add {size a b c : Nat} (ha : a < size) (hb : b < size) (hc : c < size) :
    forward size a b + forward size b c = forward size a c ∨
      forward size a b + forward size b c = forward size a c + size := by
  rw [forward_eq ha hb, forward_eq hb hc, forward_eq ha hc]
  split_ifs <;> omega

namespace Arc

variable {a : Arc} {n : Network} {size : Nat} {s d v : UInt32}

/-- The nodes of an arc, from the first one forward to the last one. -/
def nodes (a : Arc) (size : Nat) : List Nat := Network.noc0.path size a.first.toNat a.last.toNat

/-- The node of an arc from which the next hop of a network leads off it. -/
def farEnd (a : Arc) : Network → UInt32
  | .noc0 => a.last
  | .noc1 => a.first

/-- A network gets from `s` to `d` along the arc, hop by hop. -/
structure Carries (a : Arc) (n : Network) (size s d : Nat) : Prop where
  starts : s ∈ a.nodes size
  /-- All nodes on the way are on the arc. -/
  visits : ∀ v ∈ n.path size s d, v ∈ a.nodes size
  /-- No hop leads on from the far end, not even back onto an arc that covers the ring. -/
  stays : (a.farEnd n).toNat ∉ n.departures size s d

private theorem mem_nodes (hf : a.first.toNat < size) (hl : a.last.toNat < size) {v : Nat} :
    v ∈ a.nodes size ↔ v < size ∧ Ring.onArc a.first.toNat a.last.toNat v = true := by
  rw [nodes, Network.mem_path hf]
  exact and_congr_right fun hv => (Ring.onArc_iff_forward_le hf hl hv).symm

/-- A path keeps to the arc if it starts there and ends no further ahead than the far end. -/
theorem carries_iff (hf : a.first.toNat < size) (hl : a.last.toNat < size)
    (hs : s.toNat < size) : a.Carries n size s.toNat d.toNat ↔
      a.Holds s ∧ n.hops size s.toNat d.toNat ≤ n.hops size s.toNat (a.farEnd n).toNat := by
  have hfar : (a.farEnd n).toNat < size := by cases n <;> assumption
  constructor
  · intro h
    refine ⟨((mem_nodes hf hl).1 h.starts).2, Nat.le_of_not_lt fun hlt => ?_⟩
    exact h.stays ((Network.mem_departures hs).2 ⟨hfar, hlt⟩)
  · rintro ⟨hholds, hle⟩
    refine ⟨(mem_nodes hf hl).2 ⟨hs, hholds⟩, fun v hvisited => ?_, fun hleft => ?_⟩
    · obtain ⟨hv, hbefore⟩ := (Network.mem_path hs).1 hvisited
      refine (mem_nodes hf hl).2 ⟨hv, ?_⟩
      rw [Ring.onArc_iff_forward_le hf hl hv]
      rw [Holds, Ring.onArc_iff_forward_le hf hl hs] at hholds
      replace hbefore := hbefore.trans hle
      cases n with
      | noc0 =>
        have hlast := Ring.forward_le size s.toNat a.last.toNat
        have hend := Ring.forward_add hf hs hl
        have hway := Ring.forward_add hf hs hv
        simp only [Network.hops, farEnd] at hbefore
        omega
      | noc1 =>
        have hvisit := Ring.forward_le size a.first.toNat v
        have hway := Ring.forward_add hf hv hs
        simp only [Network.hops, farEnd, Ring.backward_eq_forward] at hbefore
        omega
    · exact absurd hle (Nat.not_le.2 ((Network.mem_departures hs).1 hleft).2)

/-- On a ring that holds all the positions, a path fits if the network carries it. Backward hops
from the start are the forward hops to it that are left. -/
theorem fits_iff_carries (hf : a.first.toNat < size) (hl : a.last.toNat < size)
    (hs : s.toNat < size) (hd : d.toNat < size) :
    a.fits n s d = true ↔ a.Carries n size s.toNat d.toNat := by
  rw [carries_iff hf hl hs, fits_iff]
  refine and_congr_right fun _ => ?_
  cases n with
  | noc0 => exact Ring.onArc_iff_forward_le hs hl hd
  | noc1 =>
    change Ring.onArc a.first.toNat s.toNat d.toNat = true ↔ _
    have hahead := Ring.forward_le size a.first.toNat d.toNat
    have hleft := Ring.forward_le size d.toNat s.toNat
    have hway := Ring.forward_add hf hd hs
    rw [Ring.onArc_iff_forward_le hf hs hd]
    simp only [Network.hops, farEnd, Ring.backward_eq_forward]
    omega

/-- The way back fits on the other network. -/
theorem fits_other (a : Arc) (n : Network) (s d : UInt32) : a.fits n.other d s = a.fits n s d := by
  rw [Bool.eq_iff_iff, fits_iff, fits_iff]
  cases n with
  | noc0 =>
    simp only [Holds, Network.other, Ring.onArc]
    split_ifs <;> simp only [Bool.and_eq_true, Bool.or_eq_true, decide_eq_true_eq] <;> omega
  | noc1 =>
    simp only [Holds, Network.other, Ring.onArc]
    split_ifs <;> simp only [Bool.and_eq_true, Bool.or_eq_true, decide_eq_true_eq] <;> omega

end Arc

/-- The position is on the mesh. -/
def Coord.OnMesh (c : Coord) (d : Device) : Prop := ∀ a, (c.along a).toNat < (d.size a).toNat

namespace Box

/-- The arcs of the box begin and end on the mesh. -/
def OnMesh (b : Box) (d : Device) : Prop := ∀ a,
  (b.along a).first.toNat < (d.size a).toNat ∧ (b.along a).last.toNat < (d.size a).toNat

/-- On the mesh, a network walks from a source to a destination with as many hops along each axis as
it counts. The path fits a box if along both axes the walk starts on the arc, visits only nodes of
the arc and takes no hop off its far end. The way back fits on the other network. -/
theorem fits_iff_walks {b : Box} {d : Device} {src dst : Coord} (hb : b.OnMesh d)
    (hs : src.OnMesh d) (ht : dst.OnMesh d) :
    (∀ n a, (Network.path n (d.size a).toNat (src.along a).toNat (dst.along a).toNat).getLast? =
        some (dst.along a).toNat) ∧
      (∀ n, b.fits n src dst = true ↔ ∀ a, (b.along a).Carries n (d.size a).toNat
        (src.along a).toNat (dst.along a).toNat) ∧
      (b.fits .noc0 src dst = true ↔ b.fits .noc1 dst src = true) := by
  have harc (n : Network) (a : Axis) :=
    Arc.fits_iff_carries (n := n) (hb a).1 (hb a).2 (hs a) (ht a)
  refine ⟨fun n a => Network.getLast?_path (hs a) (ht a), fun n => ?_, ?_⟩
  · rw [fits, Bool.and_eq_true_iff]
    constructor
    · rintro ⟨hx, hy⟩ a
      cases a with
      | x => exact (harc n .x).1 hx
      | y => exact (harc n .y).1 hy
    · intro h
      exact ⟨(harc n .x).2 (h .x), (harc n .y).2 (h .y)⟩
  · rw [fits, fits, ← Arc.fits_other b.x, ← Arc.fits_other b.y]
    rfl

/-- A box around the right edge of a mesh of 5 columns and 4 rows, over all of its rows. -/
def seam : Box := ⟨⟨4, 1⟩, ⟨2, 1⟩⟩

/-- Over the seam a path fits on one network, and only its way back fits on the other one. -/
theorem fits_iff_walks_seam :
    seam.OnMesh ⟨5, 4, [], 0, 0⟩ ∧ Coord.OnMesh ⟨4, 2⟩ ⟨5, 4, [], 0, 0⟩ ∧
      Coord.OnMesh ⟨1, 1⟩ ⟨5, 4, [], 0, 0⟩ ∧
      (seam.x.Carries .noc0 5 4 1 ∧ seam.y.Carries .noc0 4 2 1) ∧
      seam.fits .noc1 ⟨1, 1⟩ ⟨4, 2⟩ = true ∧
      ¬ ∀ a, (seam.along a).Carries .noc1 (Device.size ⟨5, 4, [], 0, 0⟩ a).toNat
        (Coord.along ⟨4, 2⟩ a).toNat (Coord.along ⟨1, 1⟩ a).toNat := by
  have hb : seam.OnMesh ⟨5, 4, [], 0, 0⟩ := fun a => by cases a <;> decide
  have hs : Coord.OnMesh ⟨4, 2⟩ ⟨5, 4, [], 0, 0⟩ := fun a => by cases a <;> decide
  have ht : Coord.OnMesh ⟨1, 1⟩ ⟨5, 4, [], 0, 0⟩ := fun a => by cases a <;> decide
  obtain ⟨_, hfits, hback⟩ := fits_iff_walks hb hs ht
  have hcarried := (hfits .noc0).1 (by decide)
  refine ⟨hb, hs, ht, ⟨hcarried .x, hcarried .y⟩, hback.1 (by decide), fun h => ?_⟩
  have hfit := (hfits .noc1).2 h
  revert hfit
  decide

end Box

end TorusRouting
