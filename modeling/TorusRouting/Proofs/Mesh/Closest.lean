import TorusRouting.Proofs.Mesh.Sweep

/-!
# The closest cores of two ops

Between two ops that share no core, the network is chosen from one pair of end points for each
network. Along an axis on which the spans lie apart, these ends are as close as any two lines of the
spans, whichever comes first; along an axis on which one span contains the other, both networks
reach a common line without a hop. So the choice is the one that comparing all pairs of cores makes.
-/

namespace TorusRouting

/-! ## Hops along one axis -/

namespace Ring

variable {size a b : Nat}

/-- Forward hops between nodes of the ring. -/
theorem forward_eq (ha : a < size) (hb : b < size) :
    forward size a b = if a ≤ b then b - a else size - (a - b) := by
  rw [forward, if_neg (by omega), Nat.mod_eq_of_lt ha, Nat.mod_eq_of_lt hb]

/-- Backward hops between nodes of the ring. -/
theorem backward_eq (ha : a < size) (hb : b < size) :
    backward size a b = if b ≤ a then a - b else size - (b - a) := by
  rw [backward_eq_forward, forward_eq hb ha]

end Ring

/-- A network does not move to stay where it is. -/
theorem Network.hops_self (n : Network) (size a : Nat) : n.hops size a a = 0 := by
  have hforward : Ring.forward size a a = 0 := by simp [Ring.forward]
  cases n with
  | noc0 => exact hforward
  | noc1 => rw [hops, Ring.backward_eq_forward, hforward]

namespace Op

/-- The line of a producer with the given last line that a network leaves last. -/
def leaves (op : Op) (a : Axis) (last : UInt32) : Network → UInt32
  | .noc0 => last
  | .noc1 => op.start a

/-- The line of a consumer with the given last line that a network reaches first. -/
def reaches (op : Op) (a : Axis) (last : UInt32) : Network → UInt32
  | .noc0 => op.start a
  | .noc1 => last

/-- `k` is the least number of hops of a network from a line of one op to a line of another. -/
structure LeastHops (d : Device) (n : Network) (p c : Op) (a : Axis) (k : Nat) : Prop where
  attained : ∃ s t : UInt32, s.toNat ∈ p.cells a ∧ t.toNat ∈ c.cells a ∧
    n.hops (d.size a).toNat s.toNat t.toNat = k
  least : ∀ s t : UInt32, s.toNat ∈ p.cells a → t.toNat ∈ c.cells a →
    k ≤ n.hops (d.size a).toNat s.toNat t.toNat

/-- Along the axis, the spans are apart or one contains the other. -/
def NotPartial (p c : Op) (a : Axis) : Prop :=
  Disjoint (p.cells a) (c.cells a) ∨ p.cells a ⊆ c.cells a ∨ c.cells a ⊆ p.cells a

instance (p c : Op) (a : Axis) : Decidable (p.NotPartial c a) :=
  inferInstanceAs (Decidable (_ ∨ _ ∨ _))

variable {d : Device} {p c op : Op} {a : Axis} {pl cl : UInt32}

/-- Ops that share lines along both axes have a position in common. -/
theorem exists_spans (hp : p.OnMesh d) (h : 0 < p.shared c .x ∧ 0 < p.shared c .y) :
    ∃ s, p.Spans s ∧ c.Spans s := by
  obtain ⟨core, hpc, hcc⟩ := (exists_covers_iff (c := { c with chip := p.chip }) hp rfl).2 h
  exact ⟨core.coord, hpc.2, hcc.2⟩

/-- An op on one core has no other position. -/
theorem eq_firstCoord (h : ∀ a, op.size a = 1) {s : Coord} (hs : op.Spans s) :
    s = op.firstCoord := by
  have hline (a : Axis) : s.along a = op.start a := by
    have hmem := mem_cells.1 (hs a)
    rw [h a, UInt32.toNat_one] at hmem
    exact UInt32.toNat_inj.1 (by omega)
  exact congrArg₂ Coord.mk (hline .x) (hline .y)

/-- From a common line to itself there is no hop. -/
theorem leastHops_of_shared (hp : p.OnMesh d) (h : 0 < p.shared c a) (n : Network) :
    LeastHops d n p c a 0 := by
  obtain ⟨line, hpl, hcl⟩ := shared_pos.1 h
  have hlast := (mem_cells.1 hpl).2
  have hmesh := (hp a).2
  have hword : (UInt32.ofNat line).toNat = line := by
    have hsize := (d.size a).toNat_lt_size
    exact UInt32.toNat_ofNat_of_lt' (by omega)
  refine ⟨⟨UInt32.ofNat line, UInt32.ofNat line, ?_, ?_, n.hops_self ..⟩,
    fun _ _ _ _ => Nat.zero_le _⟩
  · rwa [hword]
  · rwa [hword]

/-- Spans that lie apart are closest at their ends, for both orders of the spans. A hop count wraps
when the consumer lies against the direction of the network. -/
theorem leastHops_of_apart (hp : p.OnMesh d) (hc : c.OnMesh d) (hpl : p.last a = .ok pl)
    (hcl : c.last a = .ok cl) (h : p.shared c a = 0) (n : Network) :
    LeastHops d n p c a
      (n.hops (d.size a).toNat (p.leaves a pl n).toNat (c.reaches a cl n).toNat) := by
  obtain ⟨l, hl, hplast⟩ := exists_last hp a
  cases hpl.symm.trans hl
  obtain ⟨l', hl', hclast⟩ := exists_last hc a
  cases hcl.symm.trans hl'
  have hpsize := hp a
  have hcsize := hc a
  have hapart := Device.apart_of_shared hp hc hpl hcl h
  refine ⟨⟨_, _, ?_, ?_, rfl⟩, fun s t hs ht => ?_⟩
  · rw [mem_cells_iff_le_last hp hpl]
    cases n <;> simp only [leaves] <;> omega
  · rw [mem_cells_iff_le_last hc hcl]
    cases n <;> simp only [reaches] <;> omega
  · rw [mem_cells_iff_le_last hp hpl] at hs
    rw [mem_cells_iff_le_last hc hcl] at ht
    cases n with
    | noc0 =>
      simp only [Network.hops, leaves, reaches]
      rw [Ring.forward_eq (by omega) (by omega), Ring.forward_eq (by omega) (by omega)]
      split_ifs <;> omega
    | noc1 =>
      simp only [Network.hops, leaves, reaches]
      rw [Ring.backward_eq (by omega) (by omega), Ring.backward_eq (by omega) (by omega)]
      split_ifs <;> omega

/-- Spans that overlap without sticking out share all lines of one of them. -/
theorem NotPartial.shared_eq_size (h : p.NotPartial c a) (hpos : 0 < p.shared c a) :
    p.shared c a = (c.size a).toNat ∨ p.shared c a = (p.size a).toNat := by
  have hcard (op : Op) : (op.cells a).card = (op.size a).toNat := by
    rw [cells, Nat.card_Ico, Nat.add_sub_cancel_left]
  rcases h with hdisjoint | hsub | hsub
  · rw [shared, Finset.disjoint_iff_inter_eq_empty.1 hdisjoint, Finset.card_empty] at hpos
    exact absurd hpos (Nat.lt_irrefl 0)
  · exact Or.inr (by rw [shared, Finset.inter_eq_left.2 hsub, hcard])
  · exact Or.inl (by rw [shared, Finset.inter_eq_right.2 hsub, hcard])

end Op

/-! ## Distances between cores -/

namespace Device

variable {d : Device} {p c : Op} {a : Axis} {n : Network} {k : Nat}

/-- `k` is the least distance on a network from a core of one op to a core of another. -/
structure LeastDistance (d : Device) (n : Network) (p c : Op) (k : Nat) : Prop where
  attained : ∃ s t, p.Spans s ∧ c.Spans t ∧ d.distance n s t = .ok k
  least : ∀ s t, p.Spans s → c.Spans t → ∃ m, d.distance n s t = .ok m ∧ k ≤ m

/-- The axes are independent: the closest lines along both meet in the closest cores. -/
theorem leastDistance_add (hd : d.gridX.toNat + d.gridY.toNat ≤ UInt32.size) {kx ky : Nat}
    (hx : Op.LeastHops d n p c .x kx) (hy : Op.LeastHops d n p c .y ky) :
    d.LeastDistance n p c (kx + ky) := by
  obtain ⟨sx, tx, hsx, htx, hkx⟩ := hx.attained
  obtain ⟨sy, ty, hsy, hty, hky⟩ := hy.attained
  constructor
  · refine ⟨⟨sx, sy⟩, ⟨tx, ty⟩, ?_, ?_, ?_⟩
    · rintro (_ | _)
      · exact hsx
      · exact hsy
    · rintro (_ | _)
      · exact htx
      · exact hty
    · rw [distance_eq hd, ← hkx, ← hky]
      rfl
  · intro s t hs ht
    exact ⟨_, distance_eq hd n s t,
      Nat.add_le_add (hx.least _ _ (hs .x) (ht .x)) (hy.least _ _ (hs .y) (ht .y))⟩

/-- Ops that share no lines are joined by the network whose ends are closer. -/
theorem opRoute_of_apart (hp : p.OnMesh d) (hc : c.OnMesh d)
    (hd : d.gridX.toNat + d.gridY.toNat ≤ UInt32.size) (id : PipeId)
    (h : ∀ a, p.shared c a = 0) :
    ∃ k₀ k₁, d.opRoute id p c = .ok (.noc1If (k₁ < k₀), none) ∧
      d.LeastDistance .noc0 p c k₀ ∧ d.LeastDistance .noc1 p c k₁ := by
  obtain ⟨px, hpx, _⟩ := Op.exists_last hp .x
  obtain ⟨py, hpy, _⟩ := Op.exists_last hp .y
  obtain ⟨cx, hcx, _⟩ := Op.exists_last hc .x
  obtain ⟨cy, hcy, _⟩ := Op.exists_last hc .y
  refine ⟨_, _, ?_,
    leastDistance_add hd (Op.leastHops_of_apart hp hc hpx hcx (h .x) .noc0)
      (Op.leastHops_of_apart hp hc hpy hcy (h .y) .noc0),
    leastDistance_add hd (Op.leastHops_of_apart hp hc hpx hcx (h .x) .noc1)
      (Op.leastHops_of_apart hp hc hpy hcy (h .y) .noc1)⟩
  rw [opRoute, opOverlap_eq hp hc, if_neg (by simp [h])]
  simp only [bind, Except.bind, overlapAlong_size, h, beq_self_eq_true, Bool.and_self, ite_true,
    Op.lastCoord, hpx, hpy, hcx, hcy, pure, Except.pure, distance_eq hd]
  rfl

/-- Ops of which one contains the span of the other are joined by the network that is shorter
across. -/
theorem overlapRoute_of_contained (hp : p.OnMesh d) (hc : c.OnMesh d) (id : PipeId)
    (hfull : p.shared c a = (c.size a).toNat ∨ p.shared c a = (p.size a).toNat) {pl cl : UInt32}
    (hpl : p.last a.other = .ok pl) (hcl : c.last a.other = .ok cl) :
    ∃ box, d.overlapRoute id a (overlapAlong p c a) p c = .ok (.noc1If
      (Network.hops .noc1 (d.size a.other).toNat (p.leaves a.other pl .noc1).toNat
          (c.reaches a.other cl .noc1).toNat <
        Network.hops .noc0 (d.size a.other).toNat (p.leaves a.other pl .noc0).toNat
          (c.reaches a.other cl .noc0).toNat), box) := by
  obtain ⟨_, _, hsrc, _⟩ := Op.exists_span hp a
  obtain ⟨_, _, hdst, _⟩ := Op.exists_span hc a
  obtain ⟨pl', hpl', hsrcAcross, _⟩ := Op.exists_span hp a.other
  cases hpl.symm.trans hpl'
  obtain ⟨cl', hcl', hdstAcross, _⟩ := Op.exists_span hc a.other
  cases hcl.symm.trans hcl'
  rw [overlapRoute, hsrc, hdst, hsrcAcross, hdstAcross]
  simp only [bind, Except.bind, overlapAlong_size]
  rw [if_pos (by simpa using hfull)]
  exact ⟨_, rfl⟩

/-- Ops that share lines along one axis are joined as that overlap says. -/
theorem opRoute_of_overlap (hp : p.OnMesh d) (hc : c.OnMesh d) {id : PipeId}
    (hpos : 0 < p.shared c a) (hother : p.shared c a.other = 0) {box : Box}
    (h : d.overlapRoute id a (overlapAlong p c a) p c = .ok (n, box)) :
    d.opRoute id p c = .ok (n, some box) := by
  have hboth : ¬ (0 < p.shared c .x ∧ 0 < p.shared c .y) := by
    cases a <;> simp only [Axis.other] at hother <;> omega
  rw [opRoute, opOverlap_eq hp hc, if_neg hboth]
  simp only [bind, Except.bind, overlapAlong_size]
  cases a with
  | x =>
    rw [if_neg (by simp [hpos.ne']), if_pos hpos, h]
    rfl
  | y =>
    simp only [Axis.other] at hother
    rw [if_neg (by simp [hpos.ne']), if_neg (by simp [hother]), h]
    rfl

/-- Ops that share lines along one axis, all those of one of them, are joined by the network with
the closer cores. -/
theorem opRoute_of_contained (hp : p.OnMesh d) (hc : c.OnMesh d)
    (hd : d.gridX.toNat + d.gridY.toNat ≤ UInt32.size) (id : PipeId) (hpos : 0 < p.shared c a)
    (hother : p.shared c a.other = 0)
    (hfull : p.shared c a = (c.size a).toNat ∨ p.shared c a = (p.size a).toNat) :
    ∃ box k₀ k₁, d.opRoute id p c = .ok (.noc1If (k₁ < k₀), some box) ∧
      d.LeastDistance .noc0 p c k₀ ∧ d.LeastDistance .noc1 p c k₁ := by
  obtain ⟨pl, hpl, _⟩ := Op.exists_last hp a.other
  obtain ⟨cl, hcl, _⟩ := Op.exists_last hc a.other
  obtain ⟨box, hroute⟩ := overlapRoute_of_contained hp hc id hfull hpl hcl
  have halong := Op.leastHops_of_shared (c := c) hp hpos
  have hacross := Op.leastHops_of_apart hp hc hpl hcl hother
  have hleast (n : Network) : d.LeastDistance n p c (n.hops (d.size a.other).toNat
      (p.leaves a.other pl n).toNat (c.reaches a.other cl n).toNat) := by
    cases a with
    | x =>
      have hsum := leastDistance_add hd (halong n) (hacross n)
      rwa [Nat.zero_add] at hsum
    | y => exact leastDistance_add hd (hacross n) (halong n)
  exact ⟨box, _, _, opRoute_of_overlap hp hc hpos hother hroute, hleast .noc0, hleast .noc1⟩

/-- Two ops of one core each are joined by the network that is nearest between the cores. -/
theorem nearest_of_leastDistance (hp : ∀ a, p.size a = 1) (hc : ∀ a, c.size a = 1) {k₀ k₁ : Nat}
    (h₀ : d.LeastDistance .noc0 p c k₀) (h₁ : d.LeastDistance .noc1 p c k₁) :
    d.nearest p.firstCoord c.firstCoord = .ok (.noc1If (k₁ < k₀)) := by
  have hdistance {n : Network} {k : Nat} (h : d.LeastDistance n p c k) :
      d.distance n p.firstCoord c.firstCoord = .ok k := by
    obtain ⟨s, t, hs, ht, hk⟩ := h.attained
    rwa [Op.eq_firstCoord hp hs, Op.eq_firstCoord hc ht] at hk
  exact nearest_eq_of_distance (hdistance h₀) (hdistance h₁)

/-- Two ops on a mesh of moderate size that share no core, and do not overlap partly along an axis,
are joined by `noc1` exactly if its least distance from a core of the producer to a core of the
consumer is smaller than that of `noc0`; a tie goes to `noc0`. For ops of one core each this is the
nearest network between the two cores. -/
theorem opRoute_closest (hd : d.gridX.toNat + d.gridY.toNat ≤ 2 ^ 32) (hp : p.OnMesh d)
    (hc : c.OnMesh d) (hcores : ∀ s, p.Spans s → ¬ c.Spans s) (hfull : ∀ a, p.NotPartial c a)
    (id : PipeId) :
    ∃ n box k₀ k₁, d.opRoute id p c = .ok (n, box) ∧
      d.LeastDistance .noc0 p c k₀ ∧ d.LeastDistance .noc1 p c k₁ ∧
      n = (if k₁ < k₀ then .noc1 else .noc0) ∧
      ((∀ a, p.size a = 1 ∧ c.size a = 1) → d.nearest p.firstCoord c.firstCoord = .ok n) := by
  obtain ⟨box, k₀, k₁, hroute, h₀, h₁⟩ : ∃ box k₀ k₁,
      d.opRoute id p c = .ok (.noc1If (k₁ < k₀), box) ∧
      d.LeastDistance .noc0 p c k₀ ∧ d.LeastDistance .noc1 p c k₁ := by
    by_cases hapart : ∀ a, p.shared c a = 0
    · exact ⟨none, opRoute_of_apart hp hc hd id hapart⟩
    · obtain ⟨a, ha⟩ := not_forall.1 hapart
      have hpos : 0 < p.shared c a := Nat.pos_of_ne_zero ha
      have hother : p.shared c a.other = 0 := by
        by_contra hne
        have hboth : 0 < p.shared c .x ∧ 0 < p.shared c .y := by
          cases a <;> simp only [Axis.other] at hne <;> omega
        obtain ⟨s, hs, hs'⟩ := Op.exists_spans hp hboth
        exact hcores s hs hs'
      obtain ⟨box, hroute⟩ :=
        opRoute_of_contained hp hc hd id hpos hother ((hfull a).shared_eq_size hpos)
      exact ⟨some box, hroute⟩
  refine ⟨_, box, k₀, k₁, hroute, h₀, h₁, ?_, fun hsize => ?_⟩
  · simp only [Network.noc1If, decide_eq_true_eq]
  · exact nearest_of_leastDistance (fun a => (hsize a).1) (fun a => (hsize a).2) h₀ h₁

/-- On a mesh of eight columns, the way back around the edge from columns 0 and 1 to columns 6 and 7
has one hop, and the way forward five. The row of the consumer is one of the producer. -/
theorem opRoute_closest_aroundEdge :
    let d : Device := ⟨8, 10, [], 1024, 0⟩
    let p : Op := ⟨"prod", 0, 0, 1, 2, 3, false, false, []⟩
    let c : Op := ⟨"cons", 0, 6, 2, 2, 1, false, false, [{}]⟩
    d.gridX.toNat + d.gridY.toNat ≤ 2 ^ 32 ∧ p.OnMesh d ∧ c.OnMesh d ∧
    (∀ s, p.Spans s → ¬ c.Spans s) ∧ (∀ a, p.NotPartial c a) ∧
    (∃ box, d.opRoute ⟨7⟩ p c = .ok (.noc1, box)) ∧
    ∃ k₀ k₁, d.LeastDistance .noc0 p c k₀ ∧ d.LeastDistance .noc1 p c k₁ ∧ k₁ < k₀ := by
  intro d p c
  have hd : d.gridX.toNat + d.gridY.toNat ≤ 2 ^ 32 := by decide
  have hp : p.OnMesh d := by rintro (_ | _) <;> decide
  have hc : c.OnMesh d := by rintro (_ | _) <;> decide
  have hcores : ∀ s, p.Spans s → ¬ c.Spans s := by
    intro s hs hs'
    have hleft : s.x.toNat < 2 := (Op.mem_cells.1 (hs .x)).2
    have hright : 6 ≤ s.x.toNat := (Op.mem_cells.1 (hs' .x)).1
    omega
  have hfull : ∀ a, p.NotPartial c a := by rintro (_ | _) <;> decide
  have hroute : d.opRoute ⟨7⟩ p c = .ok (.noc1, some ⟨⟨6, 1⟩, ⟨1, 3⟩⟩) := by decide
  obtain ⟨n, box, k₀, k₁, heq, h₀, h₁, hn, _⟩ := opRoute_closest hd hp hc hcores hfull ⟨7⟩
  cases hroute.symm.trans heq
  refine ⟨hd, hp, hc, hcores, hfull, ⟨_, hroute⟩, k₀, k₁, h₀, h₁, ?_⟩
  by_contra hge
  rw [if_neg hge] at hn
  cases hn

end Device

end TorusRouting
