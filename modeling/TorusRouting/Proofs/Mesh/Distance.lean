import TorusRouting.Mesh.Device
import TorusRouting.Proofs.Outcome

/-!
# Hop counts fit a word

A network makes fewer hops on a ring than the ring has nodes. So the sum over both axes fits a word
on every mesh whose two sizes add up to at most `2 ^ 32`, also between positions off the mesh.
-/

namespace TorusRouting

namespace Ring

/-- A way around a ring never closes it. -/
theorem forward_le (size a b : Nat) : forward size a b ≤ size - 1 := by
  unfold forward
  split
  · omega
  · rename_i hsize
    have ha : a % size < size := Nat.mod_lt _ (Nat.pos_of_ne_zero hsize)
    have hb : b % size < size := Nat.mod_lt _ (Nat.pos_of_ne_zero hsize)
    split <;> omega

/-- Backward hops are the forward hops of the way back, also between positions off the ring. -/
theorem backward_eq_forward (size a b : Nat) : backward size a b = forward size b a := by
  rcases Nat.eq_zero_or_pos size with rfl | hsize
  · rfl
  · have ha := Nat.mod_lt a hsize
    have hb := Nat.mod_lt b hsize
    have hne : size ≠ 0 := Nat.ne_of_gt hsize
    rw [backward, forward, forward, if_neg hne, if_neg hne]
    split <;> split_ifs at * <;> omega

end Ring

/-- No way around a ring visits all of its nodes. -/
theorem Network.hops_le (n : Network) (size a b : Nat) : n.hops size a b ≤ size - 1 := by
  cases n with
  | noc0 => exact Ring.forward_le size a b
  | noc1 =>
    rw [hops, Ring.backward_eq_forward]
    exact Ring.forward_le size b a

/-- A small number is its own word. -/
theorem word32_of_lt {n : Nat} (h : n < UInt32.size) : word32 n = .ok (UInt32.ofNat n) := if_pos h

namespace Device

variable {d : Device}

/-- On a mesh of moderate size the distance is the sum of the hops along both axes. -/
theorem distance_eq (h : d.gridX.toNat + d.gridY.toNat ≤ UInt32.size) (n : Network) (a b : Coord) :
    d.distance n a b = .ok
      (n.hops d.gridX.toNat a.x.toNat b.x.toNat + n.hops d.gridY.toNat a.y.toNat b.y.toNat) := by
  have hx := n.hops_le d.gridX.toNat a.x.toNat b.x.toNat
  have hy := n.hops_le d.gridY.toNat a.y.toNat b.y.toNat
  have hlt : n.hops d.gridX.toNat a.x.toNat b.x.toNat +
      n.hops d.gridY.toNat a.y.toNat b.y.toNat < UInt32.size := by
    simp only [UInt32.size] at h ⊢
    omega
  rw [distance, word32_of_lt hlt]
  change Except.ok (UInt32.ofNat _).toNat = _
  rw [UInt32.toNat_ofNat_of_lt' hlt]

/-- The nearest network is read off the two distances. -/
theorem nearest_eq_of_distance {a b : Coord} {k₀ k₁ : Nat} (h₀ : d.distance .noc0 a b = .ok k₀)
    (h₁ : d.distance .noc1 a b = .ok k₁) : d.nearest a b = .ok (.noc1If (k₁ < k₀)) :=
  bind_eq_ok.2 ⟨_, h₀, bind_eq_ok.2 ⟨_, h₁, rfl⟩⟩

/-- On a mesh that the words can measure there is a nearest network. -/
theorem exists_nearest (h : d.gridX.toNat + d.gridY.toNat ≤ UInt32.size) (a b : Coord) :
    ∃ n, d.nearest a b = .ok n :=
  ⟨_, nearest_eq_of_distance (distance_eq h .noc0 a b) (distance_eq h .noc1 a b)⟩

end Device

end TorusRouting
