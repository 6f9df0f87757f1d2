import TorusRouting.Proofs.Mesh.Closest
import TorusRouting.Proofs.Routing.BestEffort

/-!
# The two networks of a direct multicast

A direct multicast comes in on the network that the rectangles of its ops favour, and leaves on the
network that the oracle answered with. The oracle looks for a consumer that is one hop away, and the
rectangles are compared by distance; one hop is the shorter way around the ring, unless the consumer
takes up the whole rest of it. Then both networks have one hop to go, the tie goes to `noc0`, and a
consumer that demands `noc1` is reached on another network than it is left on.
-/

namespace TorusRouting

/-! ## One hop from a span -/

namespace Network

variable {n : Network} {size v first last : Nat}

section

variable (hv : v < size) (hlast : last < size) (hle : first ≤ last)
  (hout : ¬ (first ≤ v ∧ v ≤ last)) (h : n.hop size v = n.nearEnd first last)

include hv hlast hle hout h

/-- The near end is one hop away. -/
theorem hops_nearEnd : n.hops size v (n.nearEnd first last) = 1 := by
  cases n with
  | noc0 =>
    simp only [hop, nearEnd, hops] at h ⊢
    rw [Ring.forward_eq hv (by omega)]
    split_ifs at h ⊢ <;> omega
  | noc1 =>
    simp only [hop, nearEnd, hops] at h ⊢
    rw [Ring.backward_eq hv hlast]
    split_ifs at h ⊢ <;> omega

omit hout in
/-- The other way around, everything outside the span has to be passed. -/
theorem hops_other_nearEnd :
    n.other.hops size v (n.other.nearEnd first last) = size - (last + 1 - first) := by
  cases n with
  | noc0 =>
    simp only [hop, nearEnd, hops, other] at h ⊢
    rw [Ring.backward_eq hv hlast]
    split_ifs at h ⊢ <;> omega
  | noc1 =>
    simp only [hop, nearEnd, hops, other] at h ⊢
    rw [Ring.forward_eq hv (by omega)]
    split_ifs at h ⊢ <;> omega

/-- The network that has one hop to go is closer, but a tie goes to `noc0`. -/
theorem hops_noc1_lt_iff :
    hops .noc1 size v (nearEnd .noc1 first last) < hops .noc0 size v (nearEnd .noc0 first last) ↔
      n = .noc1 ∧ last + 1 - first + 1 ≠ size := by
  have hnear := hops_nearEnd hv hlast hle hout h
  have hfar := hops_other_nearEnd hv hlast hle h
  cases n with
  | noc0 =>
    simp only [other] at hnear hfar
    simp only [hnear, hfar, reduceCtorEq, false_and, iff_false]
    omega
  | noc1 =>
    simp only [other] at hnear hfar
    simp only [hnear, hfar, true_and]
    omega

end

end Network

namespace Axis

/-- The other of the other axis is the axis. -/
@[simp] theorem other_other (a : Axis) : a.other.other = a := by
  cases a <;> rfl

end Axis

namespace Device

variable {d : Device} {n : Network} {a : Axis} {p c : Op}

/-- Ops that touch and share no core are joined by the network that is one hop away, unless the
other one is, too. Across the axis they have the same lines, and along it the networks leave from
the one line of the producer. -/
theorem opRoute_of_touches (hp : p.OnMesh d) (hc : c.OnMesh d) (h : d.Touches n a p c)
    (hapart : p.shared c a = 0) (id : PipeId) :
    ∃ box, d.opRoute id p c =
      .ok (.noc1If (n = .noc1 ∧ (c.size a).toNat + 1 ≠ (d.size a).toNat), some box) := by
  obtain ⟨pl, hpl, hplast⟩ := Op.exists_last hp a
  obtain ⟨cl, hcl, hclast⟩ := Op.exists_last hc a
  have hpmesh := hp a
  have hcmesh := hc a
  have hpsize : (p.size a).toNat = 1 := by rw [h.thin, UInt32.toNat_one]
  have hfull : p.shared c a.other = (c.size a.other).toNat := by
    obtain ⟨hstart, hsize⟩ := (Op.cells_eq_iff hp hc).1 h.lines
    rw [Op.shared_eq, hstart, hsize]
    omega
  have hpos : 0 < p.shared c a.other := hfull ▸ (hc a.other).1
  obtain ⟨box, hroute⟩ := overlapRoute_of_contained (a := a.other) hp hc id (Or.inl hfull)
    (by rwa [Axis.other_other]) (by rwa [Axis.other_other])
  refine ⟨box, opRoute_of_overlap hp hc hpos (by rwa [Axis.other_other]) (hroute.trans ?_)⟩
  have hleaves (m : Network) : (p.leaves a pl m).toNat = (p.start a).toNat := by
    cases m with
    | noc0 => exact (by omega : pl.toNat = (p.start a).toNat)
    | noc1 => rfl
  have hreaches (m : Network) :
      (c.reaches a cl m).toNat = m.nearEnd (c.start a).toNat cl.toNat := by
    cases m <;> rfl
  have hhop : n.hop (d.size a).toNat (p.start a).toNat =
      n.nearEnd (c.start a).toNat cl.toNat := by
    rw [h.hop, ← hclast, Nat.add_sub_cancel]
  have hcloser := Network.hops_noc1_lt_iff (by omega) (by omega) (by omega)
    (by rw [Op.shared_eq] at hapart; omega) hhop
  have hlength : cl.toNat + 1 - (c.start a).toNat = (c.size a).toNat := by omega
  rw [hlength] at hcloser
  simp only [Axis.other_other, hleaves, hreaches, hcloser]

/-- A consumer that takes up the rest of the ring is touched on both networks. -/
theorem Touches.other (h : d.Touches n a p c) (hp : p.OnMesh d) (hc : c.OnMesh d)
    (hrest : (c.size a).toNat + 1 = (d.size a).toNat) : d.Touches n.other a p c :=
  { h with
    hop := by
      have hpmesh := hp a
      have hcmesh := hc a
      have hhop := h.hop
      cases n with
      | noc0 =>
        simp only [Network.other, Network.hop, Network.nearEnd] at hhop ⊢
        split_ifs at hhop ⊢ <;> omega
      | noc1 =>
        simp only [Network.other, Network.hop, Network.nearEnd] at hhop ⊢
        split_ifs at hhop ⊢ <;> omega }

end Device

/-! ## Direct multicasts -/

namespace Oracle

variable {d : Device} {p c : Op} {ask : Broadcast} {n : Network}

/-- An answer is a network on which the producer touches the consumer. -/
theorem touches_of_adjacent (hp : p.OnMesh d) (hc : c.OnMesh d)
    (h : adjacent d p c ask = .ok (some n)) :
    ∃ a, ask.axis? = some a ∧ d.Touches n a p c ∧ (ask.noc1 = true → n = .noc1) ∧
      (ask.noc1 = false → n = .noc1 → ¬ d.Touches .noc0 a p c) := by
  rw [adjacent_eq hp hc, Except.ok.injEq, Option.bind_eq_some_iff] at h
  obtain ⟨a, ha, h⟩ := h
  refine ⟨a, ha, ?_⟩
  split_ifs at h with h₀ h₁
  · cases h
    exact ⟨h₀.2, by simp [h₀.1], by simp⟩
  · cases h
    exact ⟨h₁, fun _ => rfl, fun hfree _ htouches => h₀ ⟨hfree, htouches⟩⟩

end Oracle

namespace Epoch

variable {e : Epoch} {config : Config} {oracle : Oracle} {p : Pipe} {c : PipeClass}
  {src dst : Buffer} {r : Routing}

/-- A direct multicast joins two ops of which the oracle was asked. -/
theorem Classifies.asked_of_direct (h : e.Classifies oracle p src dst c) (hk : e.WellKeyed)
    (hdirect : c.direct = true) :
    c.BetweenOps ∧ ∃ producer consumer, e.Joins c producer consumer ∧
      oracle e.device producer consumer (asks p consumer c.input) =
        .ok (some (.noc1If c.noc1)) := by
  cases h with
  | ethernet | intoQueue | intoStage => cases hdirect
  | @intoOp heth producer hproducer hdest consumer input hconsumer _ _ _ answer hanswer =>
    obtain ⟨_, heq⟩ := feedClass_direct hdirect
    have hpcie : ((e.sourceClass p src dst producer).pcie || e.crossesPcie src dst) = false := by
      by_contra hpcie
      rw [Bool.not_eq_false] at hpcie
      rw [hpcie, heq] at hanswer
      cases producer <;> cases hanswer
    obtain ⟨op, rfl, hasked⟩ := consult_asked (hanswer.trans (congrArg _ heq)) (by simp)
    rcases producerOf_cases hproducer with ⟨hsource, _, op', _, hop, heq⟩ | ⟨_, heq⟩
    · cases heq
      obtain ⟨_, _, hconsumer⟩ := consumerOf_eq_ok.1 hconsumer
      refine ⟨⟨rfl, hpcie, hsource, hdest⟩, op, consumer, ⟨rfl, ?_, rfl, ?_⟩, hasked⟩
      · exact hk.ops.get?_key (Table.mem_values_of_get? hop)
      · exact hk.ops.get?_key (Table.mem_values_of_get? hconsumer)
    · cases heq

/-- Ops of one chip that are joined by a route share lines along one axis at most. -/
theorem shared_of_select {producer consumer : Op} (hends : e.Ends p src dst) (hc : c.BetweenOps)
    (h : e.Joins c producer consumer) (hchip : producer.chip = consumer.chip)
    (hproducer : producer.OnMesh e.device) (hconsumer : consumer.OnMesh e.device)
    (hs : e.select config p c = .ok r) {a : Axis} (hpos : 0 < producer.shared consumer a.other) :
    producer.shared consumer a = 0 := by
  by_contra hne
  have hboth : 0 < producer.shared consumer .x ∧ 0 < producer.shared consumer .y := by
    cases a <;> simp only [Axis.other] at hpos <;> omega
  have hcollide : e.device.opRoute p.id producer consumer =
      reject (.placementOverlap producer.name consumer.name (producer.shared consumer .x)
        (producer.shared consumer .y)) := by
    rw [Device.opRoute, Device.opOverlap_eq hproducer hconsumer, if_pos hboth]
    rfl
  rw [select_eq_rate hends hc h hchip, hcollide] at hs
  cases hs

/-- The way of a direct multicast comes in on the network between the rectangles of its ops. -/
theorem incoming_of_opRoute {producer consumer : Op} {n : Network} {box : Box}
    (hends : e.Ends p src dst) (hc : c.BetweenOps) (h : e.Joins c producer consumer)
    (hchip : producer.chip = consumer.chip)
    (hway : e.device.opRoute p.id producer consumer = .ok (n, some box))
    (hs : e.select config p c = .ok r) :
    ∃ l, r.route = some l ∧ l.incoming = n ∧ l.outgoing = .noc1If c.noc1 := by
  rw [select_eq_rate hends hc h hchip, hway] at hs
  obtain ⟨⟨m, fit⟩, hrate, hs⟩ := bind_eq_ok.1 hs
  obtain ⟨_, _, hrate⟩ := bind_eq_ok.1 (show e.rate p c (n, some box) = _ from hrate)
  obtain ⟨_, _, hrate⟩ := bind_eq_ok.1 hrate
  cases hrate
  cases hs
  exact ⟨_, rfl, rfl, rfl⟩

/-- In a valid, well-keyed epoch a direct multicast comes in on the network that the rectangles of
its ops favour, and leaves on the one that the adjacency oracle names. Both are the same, unless the
consumer demands `noc1` and takes up all but one line of the mesh along the axis of the multicast;
then it comes in on `noc0` and leaves on `noc1`. -/
theorem direct_networks_agree (hk : e.WellKeyed) (hvalid : e.validate = .ok ()) (config : Config)
    (hc : e.classify .adjacent p = .ok c) (hdirect : c.direct = true)
    (hs : e.select config p c = .ok r) :
    ∃ producer consumer a l, e.Joins c producer consumer ∧ r.route = some l ∧
      (asks p consumer c.input).axis? = some a ∧
      (∃ box, e.device.opRoute p.id producer consumer = .ok (l.incoming, some box)) ∧
      Oracle.adjacent e.device producer consumer (asks p consumer c.input) =
        .ok (some l.outgoing) ∧
      if (consumer.broadcast c.input).noc1 = true ∧
          (consumer.size a).toNat + 1 = (e.device.size a).toNat
      then l.incoming = .noc0 ∧ l.outgoing = .noc1
      else l.incoming = l.outgoing := by
  obtain ⟨src, dst, hends, _, hcls⟩ := classifies_of_classify hc
  obtain ⟨hops, producer, consumer, hjoins, hasked⟩ := hcls.asked_of_direct hk hdirect
  have hmesh := onMesh_of_validate hvalid
  have hproducer := hmesh producer (Table.mem_values_of_get? hjoins.sender)
  have hconsumer := hmesh consumer (Table.mem_values_of_get? hjoins.receiver)
  obtain ⟨a, haxis, htouches, hdemand, hfree⟩ :=
    Oracle.touches_of_adjacent hproducer hconsumer hasked
  have hchip := htouches.chip
  have hacross : 0 < producer.shared consumer a.other := by
    have hsize := (hproducer a.other).1
    rw [Op.shared, ← htouches.lines, Finset.inter_self, Op.cells, Nat.card_Ico]
    omega
  have hapart := shared_of_select hends hops hjoins hchip hproducer hconsumer hs hacross
  obtain ⟨box, hway⟩ := Device.opRoute_of_touches hproducer hconsumer htouches hapart p.id
  obtain ⟨l, hl, hin, hout⟩ := incoming_of_opRoute hends hops hjoins hchip hway hs
  refine ⟨producer, consumer, a, l, hjoins, hl, haxis, ⟨box, hin ▸ hway⟩, hout ▸ hasked, ?_⟩
  rw [hin, hout]
  split_ifs with hexcept
  · rw [hdemand hexcept.1]
    exact ⟨by simp [Network.noc1If, hexcept.2], rfl⟩
  · generalize Network.noc1If c.noc1 = n at *
    cases n with
    | noc0 => simp [Network.noc1If]
    | noc1 =>
      have hlines : (consumer.size a).toNat + 1 ≠ (e.device.size a).toNat := by
        intro hrest
        cases hnoc1 : (consumer.broadcast c.input).noc1 with
        | true => exact hexcept ⟨hnoc1, hrest⟩
        | false => exact hfree hnoc1 rfl (htouches.other hproducer hconsumer hrest)
      simp [Network.noc1If, hlines]

/-- On a mesh of four columns, an op that demands `noc1` takes up the three columns that the op
before it leaves. -/
def restOfTheRing : Epoch where
  index := 0
  device := { gridX := 4, gridY := 10, ethernet := [], l1Bytes := 1024, reservedBytes := 0 }
  ops := .ofList [
    ("prod", ⟨"prod", 0, 0, 2, 1, 1, false, false, []⟩),
    ("cons", ⟨"cons", 0, 1, 2, 3, 1, false, false, [{ row := true, noc1 := true }]⟩)]
  buffers := .ofList [
    (⟨1⟩, ⟨⟨1⟩, .opOutput, ⟨0, 0, 2⟩, none, some (.producer "prod"), 16, 1, 8, 2⟩),
    (⟨2⟩, ⟨⟨2⟩, .opInput, ⟨0, 1, 2⟩, none, some (.consumer "cons" 0), 16, 1, 8, 2⟩),
    (⟨3⟩, ⟨⟨3⟩, .opInput, ⟨0, 2, 2⟩, none, some (.consumer "cons" 0), 16, 1, 8, 2⟩),
    (⟨4⟩, ⟨⟨4⟩, .opInput, ⟨0, 3, 2⟩, none, some (.consumer "cons" 0), 16, 1, 8, 2⟩)]
  pipes := .ofList [(⟨10⟩, ⟨⟨10⟩, [⟨1⟩], [[⟨2⟩, ⟨3⟩, ⟨4⟩]], [], none⟩)]

/-- The networks agree where an op has room on both sides, and differ on the rest of the ring. -/
theorem direct_networks_agree_restOfTheRing :
    (∃ p c r l, rowBroadcast.WellKeyed ∧ rowBroadcast.validate = .ok () ∧
      rowBroadcast.classify .adjacent p = .ok c ∧ c.direct = true ∧
      rowBroadcast.select {} p c = .ok r ∧ r.route = some l ∧ l.incoming = l.outgoing) ∧
    ∃ p c r l, restOfTheRing.WellKeyed ∧ restOfTheRing.validate = .ok () ∧
      restOfTheRing.classify .adjacent p = .ok c ∧ c.direct = true ∧
      restOfTheRing.select {} p c = .ok r ∧ r.route = some l ∧
      l.incoming = .noc0 ∧ l.outgoing = .noc1 := by
  constructor
  · let p : Pipe := ⟨⟨10⟩, [⟨1⟩], [[⟨2⟩, ⟨3⟩]], [], none⟩
    let c : PipeClass :=
      { sourceOp := some "prod", destOp := some "cons", row := true, direct := true,
        timesteps := 1 }
    let r : Routing := ⟨some ⟨.noc0, .noc0, .unicast, .multicast⟩, true, .exact, false⟩
    have hk : rowBroadcast.WellKeyed := by decide
    have hvalid : rowBroadcast.validate = .ok () := by decide
    have hc : rowBroadcast.classify .adjacent p = .ok c := by decide
    have hs : rowBroadcast.select {} p c = .ok r := by decide
    obtain ⟨producer, consumer, a, l, hjoins, hl, _, _, _, hagree⟩ :=
      direct_networks_agree hk hvalid {} hc rfl hs
    have hends : rowBroadcast.Joins c ⟨"prod", 0, 1, 2, 1, 1, false, false, []⟩
        ⟨"cons", 0, 2, 2, 2, 1, false, false, [{ row := true }]⟩ :=
      ⟨rfl, by decide, rfl, by decide⟩
    obtain ⟨rfl, rfl⟩ := hends.unique hjoins
    rw [if_neg fun h => absurd h.1 (by decide)] at hagree
    exact ⟨p, c, r, l, hk, hvalid, hc, rfl, hs, hl, hagree⟩
  · let p : Pipe := ⟨⟨10⟩, [⟨1⟩], [[⟨2⟩, ⟨3⟩, ⟨4⟩]], [], none⟩
    let c : PipeClass :=
      { sourceOp := some "prod", destOp := some "cons", row := true, noc1 := true, direct := true,
        timesteps := 1 }
    let r : Routing := ⟨some ⟨.noc0, .noc1, .unicast, .multicast⟩, true, .exact, false⟩
    have hk : restOfTheRing.WellKeyed := by decide
    have hvalid : restOfTheRing.validate = .ok () := by decide
    have hc : restOfTheRing.classify .adjacent p = .ok c := by decide
    have hs : restOfTheRing.select {} p c = .ok r := by decide
    obtain ⟨producer, consumer, a, l, hjoins, hl, haxis, _, _, hdiffer⟩ :=
      direct_networks_agree hk hvalid {} hc rfl hs
    have hends : restOfTheRing.Joins c ⟨"prod", 0, 0, 2, 1, 1, false, false, []⟩
        ⟨"cons", 0, 1, 2, 3, 1, false, false, [{ row := true, noc1 := true }]⟩ :=
      ⟨rfl, by decide, rfl, by decide⟩
    obtain ⟨rfl, rfl⟩ := hends.unique hjoins
    cases haxis
    rw [if_pos ⟨rfl, by decide⟩] at hdiffer
    exact ⟨p, c, r, l, hk, hvalid, hc, rfl, hs, hl, hdiffer⟩

end Epoch

end TorusRouting
