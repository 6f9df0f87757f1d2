import Mathlib.Order.Interval.Finset.Nat
import TorusRouting.Proofs.Mesh.Distance
import TorusRouting.Route.Selection

/-!
# Overlap of rectangles on the mesh

The walk over the consumer's cells counts the lines that two ops share, if both lie on the mesh. A
span that neither contains the other nor is contained sticks out on one side only, so a network and
a box are found for any two ops that share no core.
-/

namespace TorusRouting

/-! ## Rectangles -/

namespace Op

/-- The lines of the mesh that an op takes up along an axis. -/
def cells (op : Op) (a : Axis) : Finset Nat :=
  Finset.Ico (op.start a).toNat ((op.start a).toNat + (op.size a).toNat)

/-- The core belongs to the rectangle of the op. -/
def Covers (op : Op) (c : Core) : Prop :=
  c.chip = op.chip ∧ ∀ a, (c.coord.along a).toNat ∈ op.cells a

/-- The rectangle is not empty and lies on the mesh without wrapping. -/
def OnMesh (op : Op) (d : Device) : Prop :=
  ∀ a, 0 < (op.size a).toNat ∧ (op.start a).toNat + (op.size a).toNat ≤ (d.size a).toNat

/-- Number of lines that two ops share along an axis. -/
def shared (p c : Op) (a : Axis) : Nat := (p.cells a ∩ c.cells a).card

variable {p c op : Op} {d : Device}

/-- The cells along an axis run from the start on. -/
theorem mem_cells {n : Nat} {a : Axis} : n ∈ op.cells a ↔
    (op.start a).toNat ≤ n ∧ n < (op.start a).toNat + (op.size a).toNat := Finset.mem_Ico

/-- Two ops share what lies before both ends and behind both starts. -/
theorem shared_eq (p c : Op) (a : Axis) : p.shared c a =
    min ((p.start a).toNat + (p.size a).toNat) ((c.start a).toNat + (c.size a).toNat) -
      max (p.start a).toNat (c.start a).toNat := by
  rw [shared, cells, cells, Finset.Ico_inter_Ico, Nat.card_Ico]

/-- Two ops share something if there is a common cell. -/
theorem shared_pos {a : Axis} : 0 < p.shared c a ↔ ∃ n, n ∈ p.cells a ∧ n ∈ c.cells a := by
  rw [shared, Finset.card_pos]
  simp only [Finset.Nonempty, Finset.mem_inter]

/-- Two ops of one chip have a core in common exactly when they share lines along both axes. -/
theorem exists_covers_iff (hp : p.OnMesh d) (hchip : p.chip = c.chip) :
    (∃ core, p.Covers core ∧ c.Covers core) ↔ 0 < p.shared c .x ∧ 0 < p.shared c .y := by
  constructor
  · rintro ⟨core, hpc, hcc⟩
    exact ⟨shared_pos.2 ⟨_, hpc.2 .x, hcc.2 .x⟩, shared_pos.2 ⟨_, hpc.2 .y, hcc.2 .y⟩⟩
  · rintro ⟨hx, hy⟩
    obtain ⟨x, hpx, hcx⟩ := shared_pos.1 hx
    obtain ⟨y, hpy, hcy⟩ := shared_pos.1 hy
    have hword {n : Nat} {a : Axis} (hn : n ∈ p.cells a) : (UInt32.ofNat n).toNat = n := by
      have hlast := (mem_cells.1 hn).2
      have hmesh := (hp a).2
      have hsize := (d.size a).toNat_lt_size
      exact UInt32.toNat_ofNat_of_lt' (by omega)
    refine ⟨⟨p.chip, UInt32.ofNat x, UInt32.ofNat y⟩, ⟨rfl, ?_⟩, hchip, ?_⟩
    · rintro (_ | _)
      · exact (hword hpx).symm ▸ hpx
      · exact (hword hpy).symm ▸ hpy
    · rintro (_ | _)
      · exact (hword hpx).symm ▸ hcx
      · exact (hword hpy).symm ▸ hcy

/-- The last cell of an op on the mesh is a word. -/
theorem exists_last (h : op.OnMesh d) (a : Axis) : ∃ l, op.last a = .ok l ∧
    l.toNat + 1 = (op.start a).toNat + (op.size a).toNat := by
  obtain ⟨hpos, hmesh⟩ := h a
  have hsize := (d.size a).toNat_lt_size
  have hlt : (op.start a).toNat + (op.size a).toNat < UInt32.size := by omega
  have hend := UInt32.toNat_ofNat_of_lt' hlt
  have hone : (1 : UInt32) ≤ UInt32.ofNat ((op.start a).toNat + (op.size a).toNat) := by
    rw [UInt32.le_iff_toNat_le, hend]
    simp only [UInt32.toNat_one]
    omega
  refine ⟨_, bind_eq_ok.2 ⟨_, word32_of_lt hlt, if_pos hone⟩, ?_⟩
  rw [UInt32.toNat_sub_of_le _ _ hone, hend]
  simp only [UInt32.toNat_one]
  omega

/-- An op on the mesh has a span along either axis, and its words do not overflow. -/
theorem exists_span (h : op.OnMesh d) (a : Axis) : ∃ l, op.last a = .ok l ∧
    op.span a = .ok ⟨op.start a, l, op.size a⟩ ∧
    l.toNat + 1 = (op.start a).toNat + (op.size a).toNat := by
  obtain ⟨l, hl, hlast⟩ := exists_last h a
  exact ⟨l, hl, bind_eq_ok.2 ⟨l, hl, rfl⟩, hlast⟩

end Op

/-! ## The walk over the consumer's cells -/

namespace Overlap

/-- What a walk has counted after `c` cells, when the cells from `lo` up to `hi` are the ones
inside. -/
def upTo (lo hi c : Nat) : Overlap where
  size := min c hi - lo
  pre := if lo < min c hi then lo else 0
  post := if lo < hi then c - hi else 0

private theorem visit_upTo (lo hi c : Nat) :
    (upTo lo hi c).visit c (decide (lo ≤ c ∧ c < hi)) = upTo lo hi (c + 1) := by
  have hsize : (upTo lo hi c).size = min c hi - lo := rfl
  rw [visit]
  split_ifs with hin hfirst hbegun
  all_goals
    rw [decide_eq_true_eq] at hin
    simp only [upTo, Overlap.mk.injEq]
    refine ⟨by omega, ?_, ?_⟩ <;> split_ifs <;> omega

/-- A walk over cells whose inside is an interval. -/
theorem walk_upTo {inside : Nat → Bool} {lo hi cells c : Nat}
    (h : ∀ i, i < c + cells → inside i = decide (lo ≤ i ∧ i < hi)) :
    walk inside cells c (upTo lo hi c) = upTo lo hi (c + cells) := by
  induction cells generalizing c with
  | zero => rfl
  | succ cells ih =>
    rw [walk, h c (by omega), visit_upTo, ih fun i hi => h i (by omega)]
    congr 1
    omega

/-- Cells of a consumer that sticks out of the producer on exactly one side. -/
theorem sides_of_partial {lo hi c : Nat} (hpos : 0 < (upTo lo hi c).size)
    (houter : (upTo lo hi c).size ≠ c) (hinner : lo = 0 ∨ c ≤ hi) :
    ¬ ((0 < (upTo lo hi c).pre) ↔ (0 < (upTo lo hi c).post)) := by
  simp only [upTo] at hpos houter ⊢
  rw [if_pos (by omega), if_pos (by omega)]
  omega

end Overlap

namespace Device

variable {d : Device} {p c : Op}

/-- The overlap of a consumer with a producer along an axis, from where their spans lie. -/
def overlapAlong (p c : Op) (a : Axis) : Overlap :=
  .upTo ((p.start a).toNat - (c.start a).toNat)
    ((p.start a).toNat + (p.size a).toNat - (c.start a).toNat) (c.size a).toNat

/-- The overlap that is swept has the size of what is shared. -/
theorem overlapAlong_size (p c : Op) (a : Axis) : (overlapAlong p c a).size = p.shared c a := by
  rw [Op.shared_eq]
  simp only [overlapAlong, Overlap.upTo]
  omega

/-- On the mesh the walk finds the overlap. Neither span wraps there, so a cell is inside when it
lies between the ends of the producer. -/
theorem axisOverlap_eq (hp : p.OnMesh d) (hc : c.OnMesh d) (a : Axis) :
    d.axisOverlap p c a = .ok (overlapAlong p c a) := by
  obtain ⟨last, _, hspan, hlast⟩ := Op.exists_span hp a
  obtain ⟨hcpos, hcmesh⟩ := hc a
  obtain ⟨hppos, hpmesh⟩ := hp a
  have hsize := (d.size a).toNat_lt_size
  have hzero : ¬ c.size a = 0 := by
    intro h
    rw [h] at hcpos
    exact absurd hcpos (by decide)
  have hgrid : ¬ d.size a = 0 := by
    intro h
    rw [h] at hcmesh
    simp only [UInt32.toNat_zero] at hcmesh
    omega
  refine bind_eq_ok.2 ⟨_, hspan, ?_⟩
  rw [Overlap.measure, if_neg hzero, if_neg (by omega), if_neg hgrid, Except.ok.injEq]
  have hstart : ({} : Overlap) = .upTo ((p.start a).toNat - (c.start a).toNat)
      ((p.start a).toNat + (p.size a).toNat - (c.start a).toNat) 0 := by
    simp [Overlap.upTo]
  rw [hstart, Overlap.walk_upTo, Nat.zero_add, overlapAlong]
  intro i hi
  rw [Nat.zero_add] at hi
  rw [Nat.mod_eq_of_lt (by omega), Ring.onArc, if_neg (by simp only; omega), ← Bool.decide_and,
    decide_eq_decide]
  simp only
  omega

/-- Two ops on the mesh overlap, or are refused with the number of lines that they share. -/
theorem opOverlap_eq (hp : p.OnMesh d) (hc : c.OnMesh d) : d.opOverlap p c =
    if 0 < p.shared c .x ∧ 0 < p.shared c .y then
      reject (.placementOverlap p.name c.name (p.shared c .x) (p.shared c .y))
    else .ok ⟨overlapAlong p c .x, overlapAlong p c .y⟩ := by
  rw [opOverlap, axisOverlap_eq hp hc .x, axisOverlap_eq hp hc .y]
  simp only [bind, Except.bind, overlapAlong_size, Bool.and_eq_true, decide_eq_true_eq]
  split <;> rfl

/-! ## Networks between ops -/

/-- A consumer that overlaps the producer partly sticks out of it on one side. On both sides, it
would have the whole producer inside. -/
theorem sides_of_overlapAlong {a : Axis} (hpos : 0 < p.shared c a)
    (hc : p.shared c a ≠ (c.size a).toNat) (hp : p.shared c a ≠ (p.size a).toNat) :
    ¬ (0 < (overlapAlong p c a).pre ↔ 0 < (overlapAlong p c a).post) := by
  rw [← overlapAlong_size] at hpos hc
  refine Overlap.sides_of_partial hpos hc ?_
  rw [Op.shared_eq] at hp
  omega

/-- Ops that overlap along an axis get a network and a box. -/
theorem exists_overlapRoute (hp : p.OnMesh d) (hc : c.OnMesh d) (id : PipeId) {a : Axis}
    (hpos : 0 < p.shared c a) :
    ∃ n box, d.overlapRoute id a (overlapAlong p c a) p c = .ok (n, box) := by
  obtain ⟨_, _, hsrc, _⟩ := Op.exists_span hp a
  obtain ⟨_, _, hdst, _⟩ := Op.exists_span hc a
  obtain ⟨_, _, hsrcAcross, _⟩ := Op.exists_span hp a.other
  obtain ⟨_, _, hdstAcross, _⟩ := Op.exists_span hc a.other
  rw [overlapRoute, hsrc, hdst, hsrcAcross, hdstAcross]
  simp only [bind, Except.bind, overlapAlong_size]
  split
  · exact ⟨_, _, rfl⟩
  · rename_i hpartial
    simp only [Bool.or_eq_true, beq_iff_eq, not_or] at hpartial
    have hsides := sides_of_overlapAlong hpos hpartial.1 hpartial.2
    rw [if_neg (by simpa only [beq_iff_eq, decide_eq_decide] using hsides)]
    simp only [pure, Except.pure]
    split <;> exact ⟨_, _, rfl⟩

/-- Ops that share no core get a network. -/
theorem exists_opRoute (hp : p.OnMesh d) (hc : c.OnMesh d)
    (hd : d.gridX.toNat + d.gridY.toNat ≤ UInt32.size) (id : PipeId)
    (h : ¬ (0 < p.shared c .x ∧ 0 < p.shared c .y)) : ∃ r, d.opRoute id p c = .ok r := by
  rw [opRoute, opOverlap_eq hp hc, if_neg h]
  simp only [bind, Except.bind, overlapAlong_size]
  by_cases hapart : p.shared c .x = 0 ∧ p.shared c .y = 0
  · obtain ⟨px, hpx, _⟩ := Op.exists_last hp .x
    obtain ⟨py, hpy, _⟩ := Op.exists_last hp .y
    obtain ⟨cx, hcx, _⟩ := Op.exists_last hc .x
    obtain ⟨cy, hcy, _⟩ := Op.exists_last hc .y
    rw [if_pos (by simpa using hapart)]
    simp only [Op.lastCoord, hpx, hpy, hcx, hcy, bind, Except.bind, pure, Except.pure,
      distance_eq hd]
    exact ⟨_, rfl⟩
  · rw [if_neg (by simpa using hapart)]
    by_cases hx : 0 < p.shared c .x
    · obtain ⟨n, box, hroute⟩ := exists_overlapRoute hp hc id hx
      rw [if_pos hx, hroute]
      exact ⟨_, rfl⟩
    · have hy : 0 < p.shared c .y := by omega
      obtain ⟨n, box, hroute⟩ := exists_overlapRoute hp hc id hy
      rw [if_neg hx, hroute]
      exact ⟨_, rfl⟩

/-- Two ops on the mesh get a network, unless they share lines along both axes. -/
theorem opRoute_eq_error_iff (hp : p.OnMesh d) (hc : c.OnMesh d)
    (hd : d.gridX.toNat + d.gridY.toNat ≤ UInt32.size) (id : PipeId) {f : Failure} :
    d.opRoute id p c = .error f ↔ (0 < p.shared c .x ∧ 0 < p.shared c .y) ∧
      f = .error (.placementOverlap p.name c.name (p.shared c .x) (p.shared c .y)) := by
  by_cases h : 0 < p.shared c .x ∧ 0 < p.shared c .y
  · rw [opRoute, opOverlap_eq hp hc, if_pos h]
    simp only [reject, bind, Except.bind, Except.error.injEq, h, and_self, true_and]
    exact eq_comm
  · obtain ⟨r, hr⟩ := exists_opRoute hp hc hd id h
    simp only [hr, reduceCtorEq, h, false_and]

end Device

end TorusRouting
