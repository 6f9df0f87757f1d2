import TorusRouting.Proofs.Mesh.Overlap

/-!
# Boxes that networks sweep

The box of a route between two ops holds both rectangles. Across the axis that they share lines of,
the box runs from one op to the other in the direction of the network, around the edge of the mesh
if need be, so every path stays inside. Along that axis a path leaves the box exactly if it would
have to run against the network; none of the paths to some line of a consumer that is as long as its
producer does.
-/

namespace TorusRouting

/-- A position that a network passes before `s`, if it does not go around the edge. -/
def Network.Behind (n : Network) (s d : UInt32) : Prop :=
  match n with
  | .noc0 => d.toNat < s.toNat
  | .noc1 => s.toNat < d.toNat

instance : (n : Network) → (s d : UInt32) → Decidable (n.Behind s d)
  | .noc0, s, d => inferInstanceAs (Decidable (d.toNat < s.toNat))
  | .noc1, s, d => inferInstanceAs (Decidable (s.toNat < d.toNat))

namespace Arc

/-- The position is on the arc. -/
def Holds (a : Arc) (v : UInt32) : Prop := Ring.onArc a.first.toNat a.last.toNat v.toNat = true

/-- The positions between two words that are in order. -/
theorem onArc_iff_of_le {first last n : Nat} (h : first ≤ last) :
    Ring.onArc first last n = true ↔ first ≤ n ∧ n ≤ last := by
  rw [Ring.onArc, if_neg (Nat.not_lt.2 h), Bool.and_eq_true, decide_eq_true_eq, decide_eq_true_eq]

/-- The positions around the edge between two words that are not in order. -/
theorem onArc_iff_of_lt {first last n : Nat} (h : last < first) :
    Ring.onArc first last n = true ↔ first ≤ n ∨ n ≤ last := by
  rw [Ring.onArc, if_pos h, Bool.or_eq_true, decide_eq_true_eq, decide_eq_true_eq]

/-- A path fits an arc if it starts on it and its end lies on the rest of the arc ahead. -/
theorem fits_iff {a : Arc} {n : Network} {s d : UInt32} : a.fits n s d = true ↔ a.Holds s ∧
    match n with
    | .noc0 => Ring.onArc s.toNat a.last.toNat d.toNat = true
    | .noc1 => Ring.onArc a.first.toNat s.toNat d.toNat = true := by
  cases n <;> exact Bool.and_eq_true_iff

/-- Inside an arc that does not wrap, a path fits unless it runs against the network. -/
theorem fits_iff_not_behind {a : Arc} {s d : UInt32} (hs : a.first.toNat ≤ s.toNat)
    (hs' : s.toNat ≤ a.last.toNat) (hd : a.first.toNat ≤ d.toNat) (hd' : d.toNat ≤ a.last.toNat)
    (n : Network) : a.fits n s d = true ↔ ¬ n.Behind s d := by
  have hholds : a.Holds s := (onArc_iff_of_le (by omega)).2 ⟨hs, hs'⟩
  rw [fits_iff, and_iff_right hholds]
  cases n with
  | noc0 =>
    rw [onArc_iff_of_le hs', Network.Behind]
    omega
  | noc1 =>
    rw [onArc_iff_of_le hs, Network.Behind]
    omega

end Arc

namespace Op

variable {op p c : Op} {d : Device} {a : Axis}

/-- The position lies in the rectangle of the op, on whatever chip. -/
def Spans (op : Op) (c : Coord) : Prop := ∀ a, (c.along a).toNat ∈ op.cells a

instance (op : Op) (c : Coord) : Decidable (op.Spans c) :=
  decidable_of_iff (c.x.toNat ∈ op.cells .x ∧ c.y.toNat ∈ op.cells .y)
    ⟨fun h a => a.rec h.1 h.2, fun h => ⟨h .x, h .y⟩⟩

/-- An op covers its own start. -/
theorem start_mem_cells (h : op.OnMesh d) (a : Axis) : (op.start a).toNat ∈ op.cells a := by
  have hpos := (h a).1
  exact mem_cells.2 (by omega)

/-- The cells of a span on the mesh end with the last one. -/
theorem mem_cells_iff_le_last {l : UInt32} (h : op.OnMesh d) (hl : op.last a = .ok l) {n : Nat} :
    n ∈ op.cells a ↔ (op.start a).toNat ≤ n ∧ n ≤ l.toNat := by
  obtain ⟨l', hl', hlast⟩ := exists_last h a
  cases hl.symm.trans hl'
  rw [mem_cells]
  omega

end Op

namespace Box

/-- The position is in the box. -/
def Holds (b : Box) (c : Coord) : Prop := ∀ a, (b.along a).Holds (c.along a)

/-- What the box of a route on network `n` is to two ops that share lines along axis `a`. -/
structure Sweeps (b : Box) (n : Network) (a : Axis) (producer consumer : Op) : Prop where
  /-- Both rectangles are in the box. -/
  holds : ∀ c, producer.Spans c ∨ consumer.Spans c → b.Holds c
  /-- Across the axis every path fits. -/
  across : ∀ s t, producer.Spans s → consumer.Spans t →
    (b.along a.other).fits n (s.along a.other) (t.along a.other) = true
  /-- Along the axis a path fits unless it would run against the network. -/
  along : ∀ s t, producer.Spans s → consumer.Spans t →
    ((b.along a).fits n (s.along a) (t.along a) = true ↔ ¬ n.Behind (s.along a) (t.along a))
  /-- Unless the consumer is shorter than the producer, it has a line that no path runs against the
  network to. -/
  front : producer.size a ≤ consumer.size a →
    ∃ t, t.toNat ∈ consumer.cells a ∧ ∀ s, s.toNat ∈ producer.cells a → ¬ n.Behind s t

/-- Whether a path between the rectangles fits is decided along the axis. -/
theorem Sweeps.fits_iff {b : Box} {n : Network} {a : Axis} {p c : Op} (h : b.Sweeps n a p c)
    {s t : Coord} (hs : p.Spans s) (ht : c.Spans t) :
    b.fits n s t = true ↔ ¬ n.Behind (s.along a) (t.along a) := by
  have hacross := h.across s t hs ht
  rw [← h.along s t hs ht, fits, Bool.and_eq_true_iff]
  cases a with
  | x => exact and_iff_left hacross
  | y => exact and_iff_right hacross

/-- Along its first axis the box has the first arc. -/
@[simp] theorem along_ofArcs (a : Axis) (x y : Arc) : (ofArcs a x y).along a = x := by
  cases a <;> rfl

/-- Along the other axis the box has the second arc. -/
@[simp] theorem along_other_ofArcs (a : Axis) (x y : Arc) : (ofArcs a x y).along a.other = y := by
  cases a <;> rfl

end Box

namespace Device

variable {d : Device} {p c : Op} {a : Axis} {pl cl : UInt32}

/-- The arc from one op to another in the direction of a network. -/
def sweepArc (p c : Op) (a : Axis) (pl cl : UInt32) : Network → Arc
  | .noc0 => ⟨p.start a, cl⟩
  | .noc1 => ⟨c.start a, pl⟩

section

variable (hp : p.OnMesh d) (hc : c.OnMesh d) (hpl : p.last a = .ok pl) (hcl : c.last a = .ok cl)

include hp hc hpl hcl

/-- Spans without a common line lie one after the other. -/
theorem apart_of_shared (h : p.shared c a = 0) :
    pl.toNat < (c.start a).toNat ∨ cl.toNat < (p.start a).toNat := by
  obtain ⟨l, hl, hplast⟩ := Op.exists_last hp a
  cases hpl.symm.trans hl
  obtain ⟨l', hl', hclast⟩ := Op.exists_last hc a
  cases hcl.symm.trans hl'
  have hppos := (hp a).1
  have hcpos := (hc a).1
  rw [Op.shared_eq] at h
  omega

/-- The arc holds both spans, and every path between them fits. The arc of `noc0` wraps when the
consumer comes first, and that of `noc1` when it comes last. -/
theorem sweepArc_fits (h : p.shared c a = 0) (n : Network) {s t : UInt32}
    (hs : s.toNat ∈ p.cells a) (ht : t.toNat ∈ c.cells a) :
    (sweepArc p c a pl cl n).Holds s ∧ (sweepArc p c a pl cl n).Holds t ∧
      (sweepArc p c a pl cl n).fits n s t = true := by
  rw [Op.mem_cells_iff_le_last hp hpl] at hs
  rw [Op.mem_cells_iff_le_last hc hcl] at ht
  rw [Arc.fits_iff]
  rcases apart_of_shared hp hc hpl hcl h with hafter | hbefore
  · cases n with
    | noc0 =>
      simp only [Arc.Holds, sweepArc]
      rw [Arc.onArc_iff_of_le (by omega), Arc.onArc_iff_of_le (by omega),
        Arc.onArc_iff_of_le (by omega)]
      omega
    | noc1 =>
      simp only [Arc.Holds, sweepArc]
      rw [Arc.onArc_iff_of_lt (by omega), Arc.onArc_iff_of_lt (by omega),
        Arc.onArc_iff_of_lt (by omega)]
      omega
  · cases n with
    | noc0 =>
      simp only [Arc.Holds, sweepArc]
      rw [Arc.onArc_iff_of_lt (by omega), Arc.onArc_iff_of_lt (by omega),
        Arc.onArc_iff_of_lt (by omega)]
      omega
    | noc1 =>
      simp only [Arc.Holds, sweepArc]
      rw [Arc.onArc_iff_of_le (by omega), Arc.onArc_iff_of_le (by omega),
        Arc.onArc_iff_of_le (by omega)]
      omega

end

/-- A box that holds both spans along the axis and is swept across it. -/
theorem sweeps_ofArcs (hp : p.OnMesh d) (hc : c.OnMesh d) (hpl : p.last a.other = .ok pl)
    (hcl : c.last a.other = .ok cl) (h : p.shared c a.other = 0) {arc : Arc}
    (harc : ∀ v, v ∈ p.cells a ∨ v ∈ c.cells a → arc.first.toNat ≤ v ∧ v ≤ arc.last.toNat)
    {n : Network} (hfront : p.size a ≤ c.size a →
      ∃ t, t.toNat ∈ c.cells a ∧ ∀ s, s.toNat ∈ p.cells a → ¬ n.Behind s t) :
    (Box.ofArcs a arc (sweepArc p c a.other pl cl n)).Sweeps n a p c := by
  have hacross {s t : UInt32} (hs : s.toNat ∈ p.cells a.other) (ht : t.toNat ∈ c.cells a.other) :=
    sweepArc_fits hp hc hpl hcl h n hs ht
  refine ⟨?_, ?_, ?_, hfront⟩
  · intro pos hpos b
    have hb : b = a ∨ b = a.other := by cases a <;> cases b <;> simp [Axis.other]
    rcases hb with rfl | rfl
    · rw [Box.along_ofArcs]
      have hv := harc _ (hpos.imp (· b) (· b))
      exact (Arc.onArc_iff_of_le (Nat.le_trans hv.1 hv.2)).2 hv
    · rw [Box.along_other_ofArcs]
      rcases hpos with hpos | hpos
      · exact (hacross (hpos a.other) (Op.start_mem_cells hc a.other)).1
      · exact (hacross (Op.start_mem_cells hp a.other) (hpos a.other)).2.1
  · intro s t hs ht
    rw [Box.along_other_ofArcs]
    exact (hacross (hs a.other) (ht a.other)).2.2
  · intro s t hs ht
    have hs := harc _ (Or.inl (hs a))
    have ht := harc _ (Or.inr (ht a))
    rw [Box.along_ofArcs]
    exact Arc.fits_iff_not_behind hs.1 hs.2 ht.1 ht.2 n

/-- The consumer begins before the producer exactly if it has cells before the shared ones. -/
theorem pre_pos_iff (hpos : 0 < p.shared c a) :
    0 < (overlapAlong p c a).pre ↔ (c.start a).toNat < (p.start a).toNat := by
  rw [Op.shared_eq] at hpos
  simp only [overlapAlong, Overlap.upTo]
  rw [if_pos (by omega)]
  omega

/-- The box of two ops that share lines along one axis only is swept by its network. Along the axis
its arc reaches from the first start to the last end, and the consumer sticks out where the network
leads to. -/
theorem overlapRoute_sweeps (hp : p.OnMesh d) (hc : c.OnMesh d) {id : PipeId}
    (hpos : 0 < p.shared c a) (hother : p.shared c a.other = 0) {n : Network} {box : Box}
    (h : d.overlapRoute id a (overlapAlong p c a) p c = .ok (n, box)) :
    box.Sweeps n a p c := by
  obtain ⟨pl, hpl, hsrc, hplast⟩ := Op.exists_span hp a
  obtain ⟨cl, hcl, hdst, hclast⟩ := Op.exists_span hc a
  obtain ⟨pl', hpl', hsrcAcross, _⟩ := Op.exists_span hp a.other
  obtain ⟨cl', hcl', hdstAcross, _⟩ := Op.exists_span hc a.other
  have hppos := (hp a).1
  have hcpos := (hc a).1
  have hsweeps {arc : Arc} (n : Network)
      (hfirst : arc.first.toNat ≤ min (p.start a).toNat (c.start a).toNat)
      (hlast : max pl.toNat cl.toNat ≤ arc.last.toNat)
      (hout : (p.size a).toNat ≤ (c.size a).toNat →
        (n = .noc0 → pl.toNat ≤ cl.toNat) ∧ (n = .noc1 → (c.start a).toNat ≤ (p.start a).toNat)) :
      (Box.ofArcs a arc (sweepArc p c a.other pl' cl' n)).Sweeps n a p c := by
    refine sweeps_ofArcs hp hc hpl' hcl' hother ?_ ?_
    · intro v hv
      rw [Op.mem_cells_iff_le_last hp hpl, Op.mem_cells_iff_le_last hc hcl] at hv
      omega
    · simp only [Op.mem_cells_iff_le_last hp hpl, Op.mem_cells_iff_le_last hc hcl]
      intro hsize
      have hout := hout (UInt32.le_iff_toNat_le.1 hsize)
      cases n with
      | noc0 =>
        have hout := hout.1 rfl
        refine ⟨cl, by omega, fun s hs => ?_⟩
        simp only [Network.Behind]
        omega
      | noc1 =>
        have hout := hout.2 rfl
        refine ⟨c.start a, by omega, fun s hs => ?_⟩
        simp only [Network.Behind]
        omega
  rw [overlapRoute, hsrc, hdst, hsrcAcross, hdstAcross] at h
  simp only [bind, Except.bind, overlapAlong_size] at h
  have hshared := Op.shared_eq p c a
  split at h
  · rename_i hcontained
    simp only [Bool.or_eq_true, beq_iff_eq] at hcontained
    cases h
    refine hsweeps _ ?_ ?_ ?_
    any_goals
      split
      all_goals
        rename_i hin
        rw [beq_iff_eq] at hin
        simp only
        omega
    · intro hsize
      omega
  · rename_i hpartial
    simp only [Bool.or_eq_true, beq_iff_eq, not_or] at hpartial
    split at h
    · cases h
    · simp only [pure, Except.pure, pre_pos_iff hpos] at h
      split at h
      · cases h
        exact hsweeps .noc1 (by simp only; omega) (by simp only; omega) fun _ => ⟨nofun, by omega⟩
      · cases h
        exact hsweeps .noc0 (by simp only; omega) (by simp only; omega) fun _ => ⟨by omega, nofun⟩

/-- Two ops without a common core are joined by a network without a box if they share no lines, and
else by a network that sweeps its box. -/
theorem opRoute_cases (hp : p.OnMesh d) (hc : c.OnMesh d)
    (hd : d.gridX.toNat + d.gridY.toNat ≤ UInt32.size) (id : PipeId)
    (h : ¬ (0 < p.shared c .x ∧ 0 < p.shared c .y)) :
    ∃ n, (d.opRoute id p c = .ok (n, none) ∧ ∀ a, p.shared c a = 0) ∨
      ∃ a box, d.opRoute id p c = .ok (n, some box) ∧ 0 < p.shared c a ∧
        p.shared c a.other = 0 ∧ box.Sweeps n a p c := by
  obtain ⟨⟨n, way⟩, hway⟩ := exists_opRoute hp hc hd id h
  refine ⟨n, ?_⟩
  have heq := hway
  rw [opRoute, opOverlap_eq hp hc, if_neg h] at heq
  simp only [bind, Except.bind, overlapAlong_size] at heq
  split at heq
  · rename_i hapart
    simp only [Bool.and_eq_true, beq_iff_eq] at hapart
    left
    obtain ⟨_, _, heq⟩ := bind_eq_ok.1 heq
    obtain ⟨_, _, heq⟩ := bind_eq_ok.1 heq
    obtain ⟨_, _, heq⟩ := bind_eq_ok.1 heq
    obtain ⟨_, _, heq⟩ := bind_eq_ok.1 heq
    cases heq
    exact ⟨hway, by rintro (_ | _) <;> simp [hapart]⟩
  · rename_i hshared
    simp only [Bool.and_eq_true, beq_iff_eq, not_and] at hshared
    right
    by_cases hx : 0 < p.shared c .x
    · obtain ⟨n', box, hroute⟩ := exists_overlapRoute hp hc id hx
      rw [if_pos hx, hroute] at heq
      cases heq
      have hy : p.shared c .y = 0 := by omega
      exact ⟨.x, box, hway, hx, hy, overlapRoute_sweeps hp hc hx hy hroute⟩
    · have hx : p.shared c .x = 0 := by omega
      have hy : 0 < p.shared c .y := Nat.pos_of_ne_zero (hshared hx)
      obtain ⟨n', box, hroute⟩ := exists_overlapRoute hp hc id hy
      rw [if_neg (by omega), hroute] at heq
      cases heq
      exact ⟨.y, box, hway, hy, hx, overlapRoute_sweeps hp hc hy hx hroute⟩

end Device

end TorusRouting
