import Mathlib.Data.Nat.ModEq
import Mathlib.Order.Bounds.Defs
import TorusRouting.Proofs.Mesh.Paths

/-!
# Distances are least hop counts

A position off the ring stands for the node it wraps to, so to get from one position to another
means to reach its residue. The forward hops do, no fewer hops do, and backward hops make up the
rest of the way around. The hops can be counted on machine words: each remainder is by a positive
size and no difference is negative, whichever of the two nodes comes first.
-/

namespace TorusRouting

namespace Ring

variable {size a b k : Nat}

private theorem forward_lt (hsize : 0 < size) : forward size a b < size := by
  have hle := forward_le size a b
  omega

/-- From the node of `a`, forward hops end at the node of `b`, at most once past the edge. -/
theorem mod_add_forward (hsize : 0 < size) :
    a % size + forward size a b = b % size ∨ a % size + forward size a b = b % size + size := by
  have ha := Nat.mod_lt a hsize
  rw [forward, if_neg hsize.ne']
  split_ifs <;> omega

/-- Forward hops lead to the destination. -/
theorem add_forward_modEq (hsize : 0 < size) : a + forward size a b ≡ b [MOD size] := by
  have hends : a % size + forward size a b ≡ b % size [MOD size] := by
    rcases mod_add_forward hsize with h | h
    · rw [h]
    · rw [h]
      exact Nat.add_mod_right ..
  calc a + forward size a b
    _ ≡ a % size + forward size a b [MOD size] := ((Nat.mod_modEq a size).add_right _).symm
    _ ≡ b % size [MOD size] := hends
    _ ≡ b [MOD size] := Nat.mod_modEq b size

/-- Hops that lead to the destination differ from the forward hops by whole rounds. -/
theorem forward_le_of_modEq (hsize : 0 < size) (h : a + k ≡ b [MOD size]) :
    forward size a b ≤ k := by
  have hrounds : k ≡ forward size a b [MOD size] :=
    Nat.ModEq.add_left_cancel' a (h.trans (add_forward_modEq hsize).symm)
  calc forward size a b
    _ = forward size a b % size := (Nat.mod_eq_of_lt (forward_lt hsize)).symm
    _ = k % size := hrounds.symm
    _ ≤ k := Nat.mod_le k size

private theorem forward_isLeast (hsize : 0 < size) :
    IsLeast {k | a + k ≡ b [MOD size]} (forward size a b) :=
  ⟨add_forward_modEq hsize, fun _ hk => forward_le_of_modEq hsize hk⟩

/-- No hop is needed exactly between positions that wrap to one node. -/
theorem forward_eq_zero_iff (hsize : 0 < size) : forward size a b = 0 ↔ a ≡ b [MOD size] := by
  constructor
  · intro h
    have hreached := add_forward_modEq (a := a) (b := b) hsize
    rwa [h] at hreached
  · intro h
    exact Nat.le_zero.1 (forward_le_of_modEq (k := 0) hsize h)

/-- Two ways between different nodes go once around the ring. -/
theorem forward_add_backward (h : forward size a b ≠ 0) :
    forward size a b + backward size a b = size := by
  have hle := forward_le size a b
  unfold backward
  split <;> omega

end Ring

/-! ## Counting on machine words -/

namespace Ring

/-- Forward hops, counted on words. -/
def forward32 (size a b : UInt32) : Outcome UInt32 :=
  if size = 0 then .ok 0
  else do
    let a ← rem32 a size
    let b ← rem32 b size
    if a ≤ b then sub32 b a
    else
      let behind ← sub32 a b
      sub32 size behind

/-- Backward hops, counted on words. -/
def backward32 (size a b : UInt32) : Outcome UInt32 := do
  let ahead ← forward32 size a b
  if ahead = 0 then return 0 else sub32 size ahead

end Ring

/-- The hops of a network, counted on words. -/
def Network.hops32 : Network → (size a b : UInt32) → Outcome UInt32
  | noc0 => Ring.forward32
  | noc1 => Ring.backward32

namespace Ring

variable (size a b : UInt32)

/-- Both remainders are less than the size, so the difference behind is too. -/
theorem exists_forward32 :
    ∃ w, forward32 size a b = .ok w ∧ w.toNat = forward size.toNat a.toNat b.toNat := by
  unfold forward32 forward
  by_cases hzero : size = 0
  · subst hzero
    exact ⟨0, rfl, rfl⟩
  · have hsize : size.toNat ≠ 0 := fun h => hzero (UInt32.toNat_inj.1 h)
    have ha := Nat.mod_lt a.toNat (Nat.pos_of_ne_zero hsize)
    rw [if_neg hzero, if_neg hsize]
    simp only [rem32, if_neg hzero, bind, Except.bind, UInt32.le_iff_toNat_le, UInt32.toNat_mod]
    split_ifs with hle
    · obtain ⟨w, hw, hnat⟩ := exists_sub32 (a := b % size) (b := a % size)
        (by simpa only [UInt32.toNat_mod] using hle)
      exact ⟨w, hw, by simpa only [UInt32.toNat_mod] using hnat⟩
    · obtain ⟨behind, hbehind, hnat⟩ := exists_sub32 (a := a % size) (b := b % size)
        (by simp only [UInt32.toNat_mod]; omega)
      rw [UInt32.toNat_mod, UInt32.toNat_mod] at hnat
      obtain ⟨w, hw, hhops⟩ := exists_sub32 (a := size) (b := behind) (by omega)
      rw [hbehind]
      exact ⟨w, hw, by rw [hhops, hnat]⟩

private theorem exists_backward32 :
    ∃ w, backward32 size a b = .ok w ∧ w.toNat = backward size.toNat a.toNat b.toNat := by
  obtain ⟨ahead, hahead, hforward⟩ := exists_forward32 size a b
  have hle := forward_le size.toNat a.toNat b.toNat
  rw [backward32, hahead, backward, ← hforward]
  by_cases hzero : ahead = 0
  · subst hzero
    exact ⟨0, rfl, rfl⟩
  · obtain ⟨w, hw, hnat⟩ := exists_sub32 (a := size) (b := ahead) (by omega)
    refine ⟨w, (if_neg hzero).trans hw, ?_⟩
    cases hcount : ahead.toNat with
    | zero => exact absurd (UInt32.toNat_inj.1 hcount) hzero
    | succ d => rw [hnat, hcount]

end Ring

/-- Counting on words never fails and loses no hop. -/
theorem Network.exists_hops32 (n : Network) (size a b : UInt32) :
    ∃ w, n.hops32 size a b = .ok w ∧ w.toNat = n.hops size.toNat a.toNat b.toNat := by
  cases n with
  | noc0 => exact Ring.exists_forward32 size a b
  | noc1 => exact Ring.exists_backward32 size a b

/-! ## Both axes -/

namespace Device

/-- The way back has the same distance on the other network. -/
theorem distance_reverse (d : Device) (a b : Coord) :
    d.distance .noc1 b a = d.distance .noc0 a b := by
  simp only [distance, Network.hops, Ring.backward_eq_forward]

/-- On a ring, `noc0` takes the least number of hops that leads from one position to another modulo
the size, for positions on the ring and off it. `noc1` takes the hops of the way back; both together
go once around, unless the positions are the same node, and words suffice to count them. A node is
on an arc if it is no further ahead than the end of the arc. On a mesh of moderate size a distance
is the sum of the hops along both axes, the way back has the same distance on the other network, and
the nearest network is `noc1` exactly if its distance is smaller. -/
theorem distance_least_hops :
    (∀ size a b : UInt32, 0 < size →
      IsLeast {k : Nat | a.toNat + k ≡ b.toNat [MOD size.toNat]}
        (Network.noc0.hops size.toNat a.toNat b.toNat) ∧
      Network.noc1.hops size.toNat a.toNat b.toNat =
        Network.noc0.hops size.toNat b.toNat a.toNat ∧
      (¬ a.toNat ≡ b.toNat [MOD size.toNat] →
        Network.noc0.hops size.toNat a.toNat b.toNat +
          Network.noc1.hops size.toNat a.toNat b.toNat = size.toNat) ∧
      (a.toNat ≡ b.toNat [MOD size.toNat] →
        Network.noc0.hops size.toNat a.toNat b.toNat = 0 ∧
          Network.noc1.hops size.toNat a.toNat b.toNat = 0) ∧
      ∀ n : Network, ∃ w, n.hops32 size a b = .ok w ∧
        w.toNat = n.hops size.toNat a.toNat b.toNat) ∧
    (∀ size first last v : UInt32, first < size → last < size → v < size →
      (Ring.onArc first.toNat last.toNat v.toNat = true ↔
        Network.noc0.hops size.toNat first.toNat v.toNat ≤
          Network.noc0.hops size.toNat first.toNat last.toNat)) ∧
    ∀ d : Device, d.gridX.toNat + d.gridY.toNat ≤ 2 ^ 32 → ∀ a b : Coord,
      (∀ n, d.distance n a b = .ok (n.hops d.gridX.toNat a.x.toNat b.x.toNat +
        n.hops d.gridY.toNat a.y.toNat b.y.toNat)) ∧
      ∃ k₀ k₁ n, d.distance .noc0 a b = .ok k₀ ∧ d.distance .noc1 a b = .ok k₁ ∧
        d.distance .noc1 b a = .ok k₀ ∧ d.nearest a b = .ok n ∧ (n = .noc1 ↔ k₁ < k₀) := by
  refine ⟨fun size a b hpos => ?_, fun size first last v hf hl hv => ?_, fun d hd a b => ?_⟩
  · have hsize : 0 < size.toNat := UInt32.lt_iff_toNat_lt.1 hpos
    refine ⟨Ring.forward_isLeast hsize, Ring.backward_eq_forward .., fun hne => ?_, fun heq => ?_,
      fun n => n.exists_hops32 size a b⟩
    · exact Ring.forward_add_backward (mt (Ring.forward_eq_zero_iff hsize).1 hne)
    · refine ⟨(Ring.forward_eq_zero_iff hsize).2 heq, ?_⟩
      rw [Network.hops, Ring.backward_eq_forward]
      exact (Ring.forward_eq_zero_iff hsize).2 heq.symm
  · rw [UInt32.lt_iff_toNat_lt] at hf hl hv
    exact Ring.onArc_iff_forward_le hf hl hv
  · have hsum (n : Network) := distance_eq hd n a b
    refine ⟨hsum, _, _, _, hsum .noc0, hsum .noc1, ?_,
      nearest_eq_of_distance (hsum .noc0) (hsum .noc1), ?_⟩
    · rw [distance_reverse, hsum]
    · simp [Network.noc1If]

/-- Host memory stands at 255 along both axes. On 12 columns and 10 rows it wraps to column 3, which
is that of the core, and to row 5, from which row 3 is 8 hops forward and 2 hops backward. -/
theorem distance_least_hops_host :
    let d : Device := ⟨12, 10, [], 0, 0⟩
    let host : Coord := ⟨255, 255⟩
    let core : Coord := ⟨3, 3⟩
    (0 < d.gridX ∧ 255 ≡ 3 [MOD 12] ∧ Network.noc0.hops 12 255 3 = 0 ∧
      Network.noc1.hops 12 255 3 = 0) ∧
    (0 < d.gridY ∧ ¬ 255 ≡ 3 [MOD 10] ∧ IsLeast {k | 255 + k ≡ 3 [MOD 10]} 8 ∧
      8 + Network.noc1.hops 10 255 3 = 10) ∧
    ((8 : UInt32) < d.gridY ∧ (1 : UInt32) < d.gridY ∧ (4 : UInt32) < d.gridY ∧
      ¬ Network.noc0.hops 10 8 4 ≤ Network.noc0.hops 10 8 1) ∧
    d.gridX.toNat + d.gridY.toNat ≤ 2 ^ 32 ∧ d.distance .noc0 host core = .ok 8 ∧
      d.distance .noc1 core host = .ok 8 ∧ d.nearest host core = .ok .noc1 := by
  intro d host core
  obtain ⟨hring, harc, hmesh⟩ := distance_least_hops
  have hd : d.gridX.toNat + d.gridY.toNat ≤ 2 ^ 32 := by decide
  obtain ⟨_, _, _, hsame, _⟩ := hring 12 255 3 (by decide)
  obtain ⟨hleast, _, haround, _⟩ := hring 10 255 3 (by decide)
  have hnot : Ring.onArc 8 1 4 = false := by decide
  obtain ⟨hsum, k₀, k₁, n, h₀, h₁, hback, hnearest, hn⟩ := hmesh d hd host core
  have h₀' : d.distance .noc0 host core = .ok 8 := (hsum .noc0).trans (by decide)
  have h₁' : d.distance .noc1 host core = .ok 2 := (hsum .noc1).trans (by decide)
  cases h₀.symm.trans h₀'
  cases h₁.symm.trans h₁'
  cases hn.2 (by decide)
  refine ⟨⟨by decide, by decide, hsame (by decide)⟩,
    ⟨by decide, by decide, hleast, haround (by decide)⟩,
    ⟨by decide, by decide, by decide, fun hle => ?_⟩, hd, h₀', hback, hnearest⟩
  have hon := (harc 10 8 1 4 (by decide) (by decide) (by decide)).2 hle
  cases hnot.symm.trans hon

end Device

end TorusRouting
