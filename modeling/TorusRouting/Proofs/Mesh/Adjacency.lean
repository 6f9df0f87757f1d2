import TorusRouting.Adjacency
import TorusRouting.Proofs.Mesh.Overlap
import TorusRouting.Proofs.Mesh.Walk

/-!
# What the adjacency oracle answers

The oracle compares one successor on each side. A producer outside the consumer that reaches it with
one hop stands just before its near end, and then the walk goes over the consumer line by line, also
around the edge of the mesh. So the answer is a network that reaches the consumer's cores first,
from every core of the producer, and there is none only if no network does.
-/

namespace TorusRouting

/-! ## Onto a span of a ring -/

namespace Network

variable {n : Network} {size v first last : Nat}

/-- The end of a span that a network comes to first. -/
def nearEnd (n : Network) (first last : Nat) : Nat :=
  match n with
  | noc0 => first
  | noc1 => last

/-- From outside, a network enters a span at its near end. -/
theorem hop_eq_nearEnd (hlast : last < size) (hout : ¬ (first ≤ v ∧ v ≤ last))
    (hin : first ≤ n.hop size v ∧ n.hop size v ≤ last) : n.hop size v = n.nearEnd first last := by
  cases n with
  | noc0 =>
    simp only [hop, nearEnd] at hin ⊢
    split_ifs at hin ⊢ <;> omega
  | noc1 =>
    simp only [hop, nearEnd] at hin ⊢
    split_ifs at hin ⊢ <;> omega

/-- Once at the near end, a network goes over the span node by node. -/
theorem exists_ahead_iff (hv : v < size) (hlast : last < size) (hle : first ≤ last)
    (h : n.hop size v = n.nearEnd first last) {u : Nat} :
    (∃ j < last + 1 - first, u = n.ahead size v (j + 1)) ↔ first ≤ u ∧ u ≤ last := by
  cases n with
  | noc0 =>
    simp only [hop, nearEnd] at h
    constructor
    · rintro ⟨j, hj, rfl⟩
      simp only [ahead]
      split_ifs at h ⊢ <;> omega
    · rintro ⟨hfirst, hlast⟩
      refine ⟨u - first, by omega, ?_⟩
      simp only [ahead]
      split_ifs at h ⊢ <;> omega
  | noc1 =>
    simp only [hop, nearEnd] at h
    constructor
    · rintro ⟨j, hj, rfl⟩
      simp only [ahead]
      split_ifs at h ⊢ <;> omega
    · rintro ⟨hfirst, hlast⟩
      refine ⟨last - u, by omega, ?_⟩
      simp only [ahead]
      split_ifs at h ⊢ <;> omega

end Network

/-! ## From the producer to the consumer -/

/-- The axis of a multicast, if it is asked for along exactly one. -/
def Broadcast.axis? (ask : Broadcast) : Option Axis :=
  match ask.row, ask.col with
  | true, false => some .x
  | false, true => some .y
  | _, _ => none

private theorem Broadcast.axis?_eq_none {ask : Broadcast} :
    ask.axis? = none ↔ ask.row = ask.col := by
  obtain ⟨row, col, noc1⟩ := ask
  cases row <;> cases col <;> simp [axis?]

private theorem Broadcast.axis?_eq_some {ask : Broadcast} {a : Axis} :
    ask.axis? = some a ↔ ask.row = (a == .x) ∧ ask.col = (a == .y) := by
  obtain ⟨row, col, noc1⟩ := ask
  cases row <;> cases col <;> cases a <;> simp [axis?]

/-- A span on the mesh is known by its lines. -/
theorem Op.cells_eq_iff {d : Device} {p c : Op} (hp : p.OnMesh d) (hc : c.OnMesh d) {a : Axis} :
    p.cells a = c.cells a ↔ p.start a = c.start a ∧ p.size a = c.size a := by
  constructor
  · intro h
    have hline (v : Nat) := Finset.ext_iff.1 h v
    simp only [mem_cells] at hline
    have hpfirst := hline (p.start a).toNat
    have hcfirst := hline (c.start a).toNat
    have hplast := hline ((p.start a).toNat + (p.size a).toNat - 1)
    have hclast := hline ((c.start a).toNat + (c.size a).toNat - 1)
    have hppos := (hp a).1
    have hcpos := (hc a).1
    rw [← UInt32.toNat_inj, ← UInt32.toNat_inj]
    omega
  · rintro ⟨hstart, hsize⟩
    rw [cells, cells, hstart, hsize]

namespace Device

variable {d : Device} {n : Network} {a : Axis} {p c : Op}

/-- A producer of one line along the axis has exactly the lines of the consumer across it, and from
each of its cores the first cores that the network reaches, as many as the consumer is long, are
those of the consumer on the same line. -/
structure Reaches (d : Device) (n : Network) (a : Axis) (p c : Op) : Prop where
  thin : p.size a = 1
  lines : p.cells a.other = c.cells a.other
  walk : ∀ s, p.Covers s → ∀ t, t ∈ d.walk n a s (c.size a).toNat ↔
    c.Covers t ∧ t.along a.other = s.along a.other

/-- A producer of one line with the lines of the consumer across it is one hop from its near end. -/
structure Touches (d : Device) (n : Network) (a : Axis) (p c : Op) : Prop where
  chip : p.chip = c.chip
  thin : p.size a = 1
  lines : p.cells a.other = c.cells a.other
  hop : n.hop (d.size a).toNat (p.start a).toNat =
    n.nearEnd (c.start a).toNat ((c.start a).toNat + (c.size a).toNat - 1)

instance : Decidable (d.Touches n a p c) :=
  decidable_of_iff (p.chip = c.chip ∧ p.size a = 1 ∧ p.cells a.other = c.cells a.other ∧
      n.hop (d.size a).toNat (p.start a).toNat =
        n.nearEnd (c.start a).toNat ((c.start a).toNat + (c.size a).toNat - 1))
    ⟨fun ⟨h₁, h₂, h₃, h₄⟩ => ⟨h₁, h₂, h₃, h₄⟩, fun h => ⟨h.chip, h.thin, h.lines, h.hop⟩⟩

private theorem covers_iff {op : Op} {s : Core} (a : Axis) : op.Covers s ↔ s.chip = op.chip ∧
    (s.along a).toNat ∈ op.cells a ∧ (s.along a.other).toNat ∈ op.cells a.other := by
  refine and_congr_right fun _ => ?_
  cases a with
  | x => exact ⟨fun h => ⟨h .x, h .y⟩, fun h b => by cases b <;> [exact h.1; exact h.2]⟩
  | y => exact ⟨fun h => ⟨h .y, h .x⟩, fun h b => by cases b <;> [exact h.2; exact h.1]⟩

/-- One hop from the near end, the walk goes over the consumer. -/
theorem Touches.reaches (h : d.Touches n a p c) (hp : p.OnMesh d) (hc : c.OnMesh d) :
    d.Reaches n a p c where
  thin := h.thin
  lines := h.lines
  walk := by
    intro s hs t
    obtain ⟨hchip, halong, hacross⟩ := (covers_iff a).1 hs
    have hpmesh := hp a
    have hcmesh := hc a
    have hstart : (s.along a).toNat = (p.start a).toNat := by
      rw [Op.mem_cells, h.thin, UInt32.toNat_one] at halong
      omega
    have hlength : (c.start a).toNat + (c.size a).toNat - 1 + 1 - (c.start a).toNat =
        (c.size a).toNat := by omega
    have hwalk := Network.exists_ahead_iff (by omega) (by omega) (by omega) h.hop
      (u := (t.along a).toNat)
    rw [hlength] at hwalk
    rw [mem_walk_iff (by omega) (by omega), hstart, hwalk, covers_iff a, hchip, h.chip,
      Op.mem_cells]
    constructor
    · rintro ⟨hchip, hline, halong⟩
      exact ⟨⟨hchip, by omega, by rw [hline, ← h.lines]; exact hacross⟩, hline⟩
    · rintro ⟨⟨hchip, halong, _⟩, hline⟩
      exact ⟨hchip, hline, by omega⟩

/-- The first hop already tells that the producer is next to the consumer. -/
theorem Reaches.touches (h : d.Reaches n a p c) (hp : p.OnMesh d) (hc : c.OnMesh d)
    (hcores : ∀ s, p.Covers s → ¬ c.Covers s) : d.Touches n a p c := by
  have hpmesh := hp a
  have hcmesh := hc a
  let s : Core := ⟨p.chip, p.x, p.y⟩
  have hstart (b : Axis) : s.along b = p.start b := by cases b <;> rfl
  have hmem (b : Axis) : (s.along b).toNat ∈ p.cells b := by
    have hpos := (hp b).1
    rw [hstart, Op.mem_cells]
    omega
  have hs : p.Covers s := ⟨rfl, hmem⟩
  have hon : (s.along a).toNat < (d.size a).toNat := by
    rw [hstart]
    omega
  obtain ⟨ht, _⟩ := (h.walk s hs _).1 (neighbour_mem_walk hcmesh.1)
  obtain ⟨hchip, hin, _⟩ := (covers_iff a).1 ht
  have hchip : p.chip = c.chip := by rwa [neighbour, Core.chip_moveTo] at hchip
  have hout : (s.along a).toNat ∉ c.cells a := by
    intro hshared
    exact hcores s hs ((covers_iff a).2 ⟨hchip, hshared, h.lines ▸ hmem a.other⟩)
  rw [toNat_along_neighbour hon, hstart, Op.mem_cells] at hin
  rw [hstart, Op.mem_cells] at hout
  exact ⟨hchip, h.thin, h.lines, Network.hop_eq_nearEnd (by omega) (by omega) (by omega)⟩

end Device

/-! ## The answer -/

namespace Oracle

variable {d : Device} {p c : Op}

/-- The successor that the oracle computes is one hop of `noc0`. -/
private theorem exists_successor {v grid : UInt32} (h : v.toNat < grid.toNat) :
    ∃ i m, add32 v 1 = .ok i ∧ rem32 i grid = .ok m ∧
      m.toNat = Network.hop .noc0 grid.toNat v.toNat := by
  have hsize := grid.toNat_lt_size
  have hword : v.toNat + (1 : UInt32).toNat < UInt32.size := by
    simp only [UInt32.toNat_one]
    omega
  have hgrid : ¬ grid = 0 := by
    rintro rfl
    exact absurd h (Nat.not_lt_zero _)
  refine ⟨_, _, word32_of_lt hword, if_neg hgrid, ?_⟩
  rw [UInt32.toNat_mod, UInt32.toNat_ofNat_of_lt' hword, UInt32.toNat_one, Network.hop]
  split
  · rename_i hlast
    rw [hlast, Nat.mod_self]
  · exact Nat.mod_eq_of_lt (by omega)

/-- On a ring, the oracle finds the network that is one hop from the consumer. The line after the
last one is the producer exactly if `noc1` hops from there to the last. -/
theorem side_eq {grid producer first last : UInt32} (hp : producer.toNat < grid.toNat)
    (hl : last.toNat < grid.toNat) (noc1Only : Bool) :
    side noc1Only grid producer first last = .ok
      (if noc1Only = false ∧ Network.hop .noc0 grid.toNat producer.toNat = first.toNat then
          some .noc0
        else if Network.hop .noc1 grid.toNat producer.toNat = last.toNat then some .noc1
        else none) := by
  obtain ⟨i, m, hi, hm, hhop⟩ := exists_successor hp
  obtain ⟨j, next, hj, hnext, hback⟩ := exists_successor hl
  have hnoc1 : next = producer ↔ Network.hop .noc1 grid.toNat producer.toNat = last.toNat := by
    rw [← UInt32.toNat_inj, hback]
    simp only [Network.hop]
    split_ifs <;> omega
  unfold side
  rw [hi, hj]
  simp only [bind, Except.bind, hm, hnext, pure, Except.pure, ← hhop, ← hnoc1]
  cases noc1Only with
  | true => simp
  | false =>
    simp only [Bool.false_eq_true, ite_false, beq_iff_eq, true_and, UInt32.toNat_inj]
    split <;> rfl

/-- The oracle answers with a network on which the producer touches the consumer. -/
theorem adjacent_eq (hp : p.OnMesh d) (hc : c.OnMesh d) (ask : Broadcast) :
    adjacent d p c ask = .ok (ask.axis?.bind fun a =>
      if ask.noc1 = false ∧ d.Touches .noc0 a p c then some .noc0
      else if d.Touches .noc1 a p c then some .noc1 else none) := by
  unfold adjacent
  cases haxis : ask.axis? with
  | none =>
    rw [Broadcast.axis?_eq_none.1 haxis, if_pos (by simp)]
    rfl
  | some a =>
    obtain ⟨hrow, hcol⟩ := Broadcast.axis?_eq_some.1 haxis
    have hasked : (if ask.row then Axis.x else .y) = a := by
      rw [hrow]
      cases a <;> rfl
    have hone : (ask.row == ask.col) = false := by
      rw [hrow, hcol]
      cases a <;> rfl
    dsimp only [Option.bind_some]
    rw [hone, Bool.or_false, hasked]
    by_cases hshape : p.chip = c.chip ∧ p.size a = 1 ∧ p.cells a.other = c.cells a.other
    · obtain ⟨hchip, hthin, hlines⟩ := hshape
      obtain ⟨hstart, hsize⟩ := (Op.cells_eq_iff hp hc).1 hlines
      obtain ⟨last, hlast, hend⟩ := Op.exists_last hc a
      have hpmesh := hp a
      have hcmesh := hc a
      have htouches (n : Network) : d.Touches n a p c ↔
          n.hop (d.size a).toNat (p.start a).toNat = n.nearEnd (c.start a).toNat last.toNat := by
        rw [← Nat.add_sub_cancel (n := last.toNat) (m := 1), hend]
        exact ⟨fun h => h.hop, fun h => ⟨hchip, hthin, hlines, h⟩⟩
      rw [if_neg (by simp [hchip]), if_neg (by simp [hthin, hstart, hsize]), hlast]
      simp only [htouches]
      exact side_eq (by omega) (by omega) ask.noc1
    · have hapart (n : Network) : ¬ d.Touches n a p c :=
        fun h => hshape ⟨h.chip, h.thin, h.lines⟩
      simp only [hapart, and_false, ite_false]
      by_cases hchip : p.chip = c.chip
      · rw [if_neg (by simp [hchip]), if_pos ?_]
        · rfl
        · rw [Op.cells_eq_iff hp hc] at hshape
          simp only [hchip, true_and, not_and] at hshape
          simp only [Bool.or_eq_true, bne_iff_ne, ne_eq]
          tauto
      · rw [if_pos (by simp [hchip])]
        rfl

/-- The adjacency oracle always answers about ops on the mesh. -/
theorem exists_adjacent (hp : p.OnMesh d) (hc : c.OnMesh d) (ask : Broadcast) :
    ∃ answer, adjacent d p c ask = .ok answer :=
  ⟨_, adjacent_eq hp hc ask⟩

/-- Asked about two ops on the mesh that share no core, the adjacency oracle answers, and with a
network only if they are on one chip and the multicast runs along exactly one axis. Then it has an
answer exactly if some network reaches the consumer from the producer, `noc1` if the multicast must
travel there; the answer is such a network, and it is `noc0` whenever `noc0` is one and `noc1` is
not demanded. -/
theorem adjacent_sound_complete (hp : p.OnMesh d) (hc : c.OnMesh d)
    (hcores : ∀ s, p.Covers s → ¬ c.Covers s) (ask : Broadcast) :
    ∃ answer, adjacent d p c ask = .ok answer ∧
      (answer ≠ none → p.chip = c.chip ∧ ask.row ≠ ask.col) ∧
      ∀ a, ask.axis? = some a →
        (answer ≠ none ↔ ∃ n, d.Reaches n a p c ∧ (ask.noc1 = true → n = .noc1)) ∧
        (∀ n, answer = some n → d.Reaches n a p c ∧ (ask.noc1 = true → n = .noc1)) ∧
        (d.Reaches .noc0 a p c → ask.noc1 = false → answer = some .noc0) := by
  have htouches (n : Network) (a : Axis) : d.Reaches n a p c ↔ d.Touches n a p c :=
    ⟨fun h => h.touches hp hc hcores, fun h => h.reaches hp hc⟩
  refine ⟨_, adjacent_eq hp hc ask, fun hanswer => ?_, fun a ha => ?_⟩
  · cases haxis : ask.axis? with
    | none =>
      rw [haxis] at hanswer
      exact absurd rfl hanswer
    | some a =>
      have hone : ask.row ≠ ask.col := by
        intro hboth
        cases haxis.symm.trans (Broadcast.axis?_eq_none.2 hboth)
      rw [haxis, Option.bind_some] at hanswer
      split_ifs at hanswer with h₀ h₁
      · exact ⟨h₀.2.chip, hone⟩
      · exact ⟨h₁.chip, hone⟩
      · exact absurd rfl hanswer
  · rw [ha, Option.bind_some]
    simp only [htouches]
    have hdemand : ask.noc1 = true → ¬ ask.noc1 = false := by
      intro h
      rw [h]
      exact Bool.noConfusion
    split_ifs with h₀ h₁
    · have hfree : ask.noc1 = true → Network.noc0 = .noc1 := fun h => absurd h₀.1 (hdemand h)
      refine ⟨⟨fun _ => ⟨.noc0, h₀.2, hfree⟩, fun _ => Option.some_ne_none _⟩, ?_, fun _ _ => rfl⟩
      rintro n ⟨⟩
      exact ⟨h₀.2, hfree⟩
    · refine ⟨⟨fun _ => ⟨.noc1, h₁, fun _ => rfl⟩, fun _ => Option.some_ne_none _⟩, ?_, ?_⟩
      · rintro n ⟨⟩
        exact ⟨h₁, fun _ => rfl⟩
      · exact fun h hfree => absurd ⟨hfree, h⟩ h₀
    · refine ⟨⟨fun h => absurd rfl h, ?_⟩, (fun n h => by cases h),
        fun h hfree => absurd ⟨hfree, h⟩ h₀⟩
      rintro ⟨n, hn, hnoc1⟩
      cases n with
      | noc0 =>
        have hfree : ask.noc1 = false := by
          cases hask : ask.noc1 with
          | false => rfl
          | true => cases hnoc1 hask
        exact absurd ⟨hfree, hn⟩ h₀
      | noc1 => exact absurd hn h₁

/-- On a ring of four columns the producer has the consumer's three on both sides. Both networks
reach them, `noc0` around the edge, and the demand for `noc1` decides. -/
theorem adjacent_sound_complete_fullRing :
    let d : Device := ⟨4, 3, [], 1024, 0⟩
    let p : Op := ⟨"prod", 0, 3, 1, 1, 2, false, false, []⟩
    let c : Op := ⟨"cons", 0, 0, 1, 3, 2, false, false, [{ row := true }]⟩
    p.OnMesh d ∧ c.OnMesh d ∧ (∀ s, p.Covers s → ¬ c.Covers s) ∧
    adjacent d p c { row := true } = .ok (some .noc0) ∧
    adjacent d p c { row := true, noc1 := true } = .ok (some .noc1) ∧
    d.Reaches .noc0 .x p c ∧ d.Reaches .noc1 .x p c := by
  intro d p c
  have hp : p.OnMesh d := by rintro (_ | _) <;> decide
  have hc : c.OnMesh d := by rintro (_ | _) <;> decide
  have hcores : ∀ s, p.Covers s → ¬ c.Covers s := by
    intro s hs hs'
    have hright : 3 ≤ s.x.toNat := (Op.mem_cells.1 (hs.2 .x)).1
    have hleft : s.x.toNat < 3 := (Op.mem_cells.1 (hs'.2 .x)).2
    omega
  have hnoc0 : adjacent d p c { row := true } = .ok (some .noc0) := by decide
  have hnoc1 : adjacent d p c { row := true, noc1 := true } = .ok (some .noc1) := by decide
  obtain ⟨_, heq₀, _, h₀⟩ := adjacent_sound_complete hp hc hcores { row := true }
  cases hnoc0.symm.trans heq₀
  obtain ⟨_, heq₁, _, h₁⟩ := adjacent_sound_complete hp hc hcores { row := true, noc1 := true }
  cases hnoc1.symm.trans heq₁
  exact ⟨hp, hc, hcores, hnoc0, hnoc1, ((h₀ .x rfl).2.1 _ rfl).1, ((h₁ .x rfl).2.1 _ rfl).1⟩

end Oracle

end TorusRouting
