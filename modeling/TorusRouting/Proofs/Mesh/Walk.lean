import Mathlib.Data.List.Iterate
import TorusRouting.Mesh.Device

/-!
# Walks around the rings of the mesh

A network goes from a core to its neighbour along an axis, one line further in its direction and
around the edge of the mesh after the last line. A walk keeps to one line across the axis and passes
every core of it before it comes back.
-/

namespace TorusRouting

namespace Network

variable {n : Network} {size v k : Nat}

/-- The node after `v` on a ring of `size` nodes, in the direction of the network. -/
def hop (n : Network) (size v : Nat) : Nat :=
  match n with
  | noc0 => if v + 1 = size then 0 else v + 1
  | noc1 => if v = 0 then size - 1 else v - 1

/-- The node that is `k` hops ahead of `v`, for at most one way around the ring. -/
def ahead (n : Network) (size v k : Nat) : Nat :=
  match n with
  | noc0 => if v + k < size then v + k else v + k - size
  | noc1 => if k ≤ v then v - k else v + size - k

private theorem hop_lt (hv : v < size) : n.hop size v < size := by
  cases n <;> simp only [hop] <;> split <;> omega

/-- A walk stays on the ring. -/
theorem ahead_lt (hv : v < size) (hk : k ≤ size) : n.ahead size v k < size := by
  cases n <;> simp only [ahead] <;> split <;> omega

/-- A walk of no hops stays where it is. -/
@[simp] theorem ahead_zero (hv : v < size) : n.ahead size v 0 = v := by
  cases n <;> simp [ahead, hv]

/-- One hop further ahead. -/
theorem hop_ahead (hv : v < size) (hk : k < size) :
    n.hop size (n.ahead size v k) = n.ahead size v (k + 1) := by
  cases n with
  | noc0 =>
    simp only [hop, ahead]
    split_ifs <;> omega
  | noc1 =>
    simp only [hop, ahead]
    split_ifs <;> omega

end Network

namespace Core

/-- The position of a core along an axis. -/
def along (c : Core) (a : Axis) : UInt32 := c.coord.along a

/-- The core on another line of the same chip. -/
def moveTo (c : Core) (a : Axis) (v : UInt32) : Core :=
  match a with
  | .x => { c with x := v }
  | .y => { c with y := v }

variable {c t : Core} {a : Axis} {v w : UInt32}

/-- A move stays on its chip. -/
@[simp] theorem chip_moveTo : (c.moveTo a v).chip = c.chip := by
  cases a <;> rfl

/-- A move along an axis sets that coordinate. -/
@[simp] theorem along_moveTo : (c.moveTo a v).along a = v := by
  cases a <;> rfl

/-- A move along an axis leaves the other coordinate. -/
@[simp] theorem along_other_moveTo : (c.moveTo a v).along a.other = c.along a.other := by
  cases a <;> rfl

/-- Of two moves along an axis the last one counts. -/
@[simp] theorem moveTo_moveTo : (c.moveTo a v).moveTo a w = c.moveTo a w := by
  cases a <;> rfl

/-- Cores of one chip on the same line across an axis differ by their position along it. -/
theorem eq_moveTo_iff : t = c.moveTo a v ↔
    t.chip = c.chip ∧ t.along a = v ∧ t.along a.other = c.along a.other := by
  obtain ⟨chip, x, y⟩ := c
  obtain ⟨chip', x', y'⟩ := t
  cases a <;> simp only [moveTo, along, coord, Coord.along, Axis.other, mk.injEq]
  exact and_congr_right fun _ => and_comm

end Core

namespace Device

variable {d : Device} {n : Network} {a : Axis} {s t : Core} {k : Nat}

/-- The core that a network reaches from a core with one hop along an axis. -/
def neighbour (d : Device) (n : Network) (a : Axis) (c : Core) : Core :=
  c.moveTo a (UInt32.ofNat (n.hop (d.size a).toNat (c.along a).toNat))

/-- The first `k` cores that a network reaches from a core along an axis, hop by hop. -/
def walk (d : Device) (n : Network) (a : Axis) (c : Core) (k : Nat) : List Core :=
  List.iterate (d.neighbour n a) (d.neighbour n a c) k

/-- The neighbour on a network is one hop ahead. -/
theorem toNat_along_neighbour (hs : (s.along a).toNat < (d.size a).toNat) :
    ((d.neighbour n a s).along a).toNat = n.hop (d.size a).toNat (s.along a).toNat := by
  rw [neighbour, Core.along_moveTo]
  exact UInt32.toNat_ofNat_of_lt' ((n.hop_lt hs).trans (d.size a).toNat_lt_size)

/-- A walk begins with the neighbour. -/
theorem neighbour_mem_walk (hk : 0 < k) : d.neighbour n a s ∈ d.walk n a s k :=
  List.mem_iterate.2 ⟨0, hk, rfl⟩

/-- After `k` hops a network is at the core that many nodes ahead. -/
theorem iterate_neighbour (hs : (s.along a).toNat < (d.size a).toNat)
    (hk : k ≤ (d.size a).toNat) : (d.neighbour n a)^[k] s =
      s.moveTo a (UInt32.ofNat (n.ahead (d.size a).toNat (s.along a).toNat k)) := by
  induction k with
  | zero =>
    rw [Network.ahead_zero hs]
    exact Core.eq_moveTo_iff.2 ⟨rfl, UInt32.ofNat_toNat.symm, rfl⟩
  | succ k ih =>
    have hword := UInt32.toNat_ofNat_of_lt'
      ((n.ahead_lt hs (Nat.le_of_succ_le hk)).trans (d.size a).toNat_lt_size)
    rw [Function.iterate_succ_apply', ih (Nat.le_of_succ_le hk), neighbour, Core.along_moveTo,
      Core.moveTo_moveTo, hword, Network.hop_ahead hs hk]

/-- The cores of a walk are the ones ahead on the same line, up to its length. -/
theorem mem_walk_iff (hs : (s.along a).toNat < (d.size a).toNat) (hk : k ≤ (d.size a).toNat) :
    t ∈ d.walk n a s k ↔ t.chip = s.chip ∧ t.along a.other = s.along a.other ∧
      ∃ j < k, (t.along a).toNat = n.ahead (d.size a).toNat (s.along a).toNat (j + 1) := by
  have hcore {j : Nat} (hj : j < k) : t = (d.neighbour n a)^[j] (d.neighbour n a s) ↔
      t.chip = s.chip ∧ t.along a.other = s.along a.other ∧
        (t.along a).toNat = n.ahead (d.size a).toNat (s.along a).toNat (j + 1) := by
    have hle : j + 1 ≤ (d.size a).toNat := Nat.le_trans hj hk
    have hword := UInt32.toNat_ofNat_of_lt' ((n.ahead_lt hs hle).trans (d.size a).toNat_lt_size)
    rw [← Function.iterate_succ_apply, iterate_neighbour hs hle, Core.eq_moveTo_iff]
    refine and_congr_right fun _ => and_comm.trans (and_congr_right fun _ => ?_)
    rw [← UInt32.toNat_inj, hword]
  rw [walk, List.mem_iterate]
  constructor
  · rintro ⟨j, hj, ht⟩
    obtain ⟨hchip, hline, halong⟩ := (hcore hj).1 ht
    exact ⟨hchip, hline, j, hj, halong⟩
  · rintro ⟨hchip, hline, j, hj, halong⟩
    exact ⟨j, hj, (hcore hj).2 ⟨hchip, hline, halong⟩⟩

end Device

end TorusRouting
