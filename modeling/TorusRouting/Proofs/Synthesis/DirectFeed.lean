import TorusRouting.Proofs.Routing.RowMulticast
import TorusRouting.Proofs.Synthesis.Laying
import TorusRouting.Proofs.Synthesis.Routable

/-!
# Ops that follow their predecessor are fed directly

In a random epoch, an op that follows its predecessor stands right behind the single column of it,
and its first input comes row by row from that column. With two columns or more these are all
multicasts, and the pass routes every one of them directly on `noc0`.
-/

namespace TorusRouting

namespace Epoch

variable {e e' : Epoch} {q : Pipe} {op : Op} {input : UInt64}

/-- The pipe takes output of the op. -/
def LeadsFrom (e : Epoch) (q : Pipe) (op : Op) : Prop :=
  ∃ id ∈ q.inputs, ∃ b, e.buffers.get? id = some b ∧ e.Emits b op

/-- The pipe brings data to an input of the op. -/
def LeadsInto (e : Epoch) (q : Pipe) (op : Op) (input : UInt64) : Prop :=
  ∃ id ∈ q.allOutputs, ∃ b, e.buffers.get? id = some b ∧ e.Feeds b op input

/-- A pipe out of an op stays one while more is added. -/
theorem LeadsFrom.under (hq : e.LeadsFrom q op) (h : e.Under e') : e'.LeadsFrom q op := by
  obtain ⟨id, hid, b, hb, hemits⟩ := hq
  exact ⟨id, hid, b, h.buffer hb, h.emits hemits⟩

/-- A pipe into an op stays one while more is added. -/
theorem LeadsInto.under (hq : e.LeadsInto q op input) (h : e.Under e') :
    e'.LeadsInto q op input := by
  obtain ⟨id, hid, b, hb, hfeeds⟩ := hq
  exact ⟨id, hid, b, h.buffer hb, h.feeds hfeeds⟩

private theorem Avoids.not_leadsInto (h : e.Avoids op.name q) : ¬ e.LeadsInto q op 0 := by
  rintro ⟨id, hid, b, hb, hfeeds⟩
  obtain ⟨b', hb', howner⟩ := h id hid
  cases hb.symm.trans hb'
  exact howner hfeeds.owner

/-- Routing keeps ops and buffers. -/
theorem Rerouted.under (h : e.Rerouted e') : e.Under e' ∧ e'.Under e :=
  ⟨⟨h.device, fun hop => h.ops ▸ hop, fun hb => h.buffers ▸ hb⟩,
    ⟨h.device.symm, fun hop => h.ops ▸ hop, fun hb => h.buffers ▸ hb⟩⟩

end Epoch

namespace Synthesis

open Randomness

variable {p : Params} {e : Epoch} {op producer consumer : Op} {s : Slot} {o : Planned}
  {sources slots : List Slot} {n : UInt32} {index : UInt64}

/-! ## Slots on a row -/

private theorem mem_onRow : s ∈ onRow slots n ↔ s ∈ slots ∧ s.core.y = n := by
  simp [onRow, Core.coord, Coord.along]

/-- The pipe of a row writes the first inputs of the slots on that row. -/
theorem IsRowWire.allOutputs {q : Pipe} (h : IsRowWire sources slots n q) :
    q.allOutputs = (onRow slots n).map (·.first) := by
  obtain ⟨id, src, _, t, _, _, rfl⟩ := h
  simp [wire, Pipe.allOutputs]

private theorem SlotsOf.exists_slot (h : SlotsOf slots e op) {core : Core}
    (hcore : op.Covers core) :
    ∃ s ∈ slots, s.core = core := by
  have hmem := (mem_opCores h.onMesh).2 hcore
  rw [← h.cores] at hmem
  exact List.mem_map.1 hmem

/-- An op of two columns or more has several slots on each of its rows. -/
theorem SlotsOf.one_lt_length_onRow (h : SlotsOf slots e op) (hn : n.toNat ∈ op.cells .y)
    (hwide : 2 ≤ op.width.toNat) : 1 < (onRow slots n).length := by
  have hslot (i : Nat) (hi : i < op.width.toNat) :
      ∃ s ∈ onRow slots n, s.core.x.toNat = op.x.toNat + i := by
    have hmesh := (h.onMesh .x).2
    have hsize := (e.device.size .x).toNat_lt_size
    have hx : (UInt32.ofNat (op.x.toNat + i)).toNat = op.x.toNat + i := by
      simp only [Op.start, Op.size] at hmesh
      exact UInt32.toNat_ofNat_of_lt' (by omega)
    have hcovers : op.Covers ⟨op.chip, UInt32.ofNat (op.x.toNat + i), n⟩ := by
      refine ⟨rfl, ?_⟩
      rintro (_ | _)
      · refine Op.mem_cells.2 ?_
        simp only [Core.coord, Coord.along, Op.start, Op.size, hx]
        omega
      · exact hn
    obtain ⟨s, hs, hcore⟩ := h.exists_slot hcovers
    refine ⟨s, mem_onRow.2 ⟨hs, ?_⟩, ?_⟩
    · rw [hcore]
    · rw [hcore, hx]
  obtain ⟨s, hs, hsx⟩ := hslot 0 (by omega)
  obtain ⟨t, ht, htx⟩ := hslot 1 (by omega)
  have hne : s ≠ t := by
    rintro rfl
    omega
  calc 1 < (onRow slots n).toFinset.card :=
        Finset.one_lt_card.2 ⟨s, List.mem_toFinset.2 hs, t, List.mem_toFinset.2 ht, hne⟩
    _ ≤ (onRow slots n).length := List.toFinset_card_le _

/-- An op with slots is stored. -/
theorem SlotsOf.stored (h : SlotsOf slots e op) : e.ops.get? op.name = some op := by
  obtain ⟨s, hs⟩ := List.exists_mem_of_ne_nil slots h.ne_nil
  obtain ⟨_, _, _, hemits⟩ := (h.slot s hs).output
  exact hemits.stored

/-! ## Ops and ethernet cores -/

/-- The rows for ops have no ethernet core. -/
theorem isEthernetCore_eq_false (htop : p.firstRow.toNat ≤ op.y.toNat) {core : Core}
    (hcore : op.Covers core) : p.device.isEthernetCore core = false := by
  have hrow := (Op.mem_cells.1 (hcore.2 .y)).1
  rw [Device.isEthernetCore, Bool.eq_false_iff, ne_eq, List.contains_iff_mem]
  intro hmem
  simp only [Params.device] at hmem
  split at hmem
  · rename_i hethernet
    obtain ⟨_, _, heq⟩ := List.mem_map.1 hmem
    have hzero : core.coord.y = 0 := (congrArg Coord.y heq).symm
    have hone : p.firstRow = 1 := if_pos hethernet
    simp only [Op.start, Coord.along, hzero, UInt32.toNat_zero] at hrow
    rw [hone, UInt32.toNat_one] at htop
    omega
  · cases hmem

section

variable (hs : s.Of e op) (htyped : s.Typed e) (heth : e.device.isEthernetCore s.core = false)

include hs htyped heth

private theorem Slot.Of.emitsOn :
    ∃ b, e.buffers.get? s.output = some b ∧ e.EmitsOn b op s.core.y := by
  obtain ⟨b, hb, hcore, hemits⟩ := hs.output
  obtain ⟨b', hb', hkind⟩ := htyped.output
  cases hb.symm.trans hb'
  refine ⟨b, hb, hemits, ?_, hcore.symm ▸ hs.covers, by rw [hcore]⟩
  rw [Buffer.endpoint, hkind, hcore]
  exact if_neg (by simp [heth])

private theorem Slot.Of.feedsOn :
    ∃ b, e.buffers.get? s.first = some b ∧ e.FeedsOn b op s.core.y := by
  obtain ⟨b, hb, hcore, hfeeds⟩ := hs.first
  obtain ⟨b', hb', hkind⟩ := htyped.first
  cases hb.symm.trans hb'
  refine ⟨b, hb, hfeeds, ?_, hcore.symm ▸ hs.covers, by rw [hcore]⟩
  rw [Buffer.endpoint, hkind, hcore]
  exact if_neg (by simp [heth])

end

/-! ## Followed ops -/

/-- An op of an epoch that follows its predecessor, with the slots of both. -/
structure Followed (p : Params) (e : Epoch) (o : Planned) (producer consumer : Op)
    (sources slots : List Slot) : Prop where
  device : e.device = p.device
  precedes : producer.Precedes consumer
  top : p.firstRow.toNat ≤ producer.y.toNat
  places : o.Places p consumer
  broadcast : o.broadcast = ⟨true, false, false⟩
  wide : min p.band 2 ≤ consumer.width.toNat
  sender : SlotsOf sources e producer
  senderKinds : ∀ s ∈ sources, s.Typed e
  receiver : SlotsOf slots e consumer
  receiverKinds : ∀ s ∈ slots, s.Typed e
  laid : ∀ q ∈ e.pipes.values, e.Avoids consumer.name q ∨ RowWireOf consumer sources slots q
  fed : RowsFed consumer sources slots e

/-- Where the rectangle of a plan is a column right before another one, so are the ops. -/
theorem Rect.Before.precedes {previous : Planned} (h : previous.rect.Before o.rect p)
    (hp : previous.Places p producer) (hc : o.Places p consumer) : producer.Precedes consumer where
  chip := hp.chip.trans hc.chip.symm
  column := hp.width.trans h.column
  next := by rw [hp.x, hc.x, h.next]
  row := by rw [hp.y, hc.y, h.row]
  height := by rw [hp.height, hc.height, h.height]

/-- In an epoch that was built, every op that follows its predecessor has the pipes of its rows. -/
theorem Built.exists_followed {ops : List (Planned × Op)} {start b : Builder}
    (h : Built p index ops start b) {i : Nat} (ho : (ops.map (·.1))[i]? = some o)
    (hfollows : o.follows = true) :
    ∃ (j : Nat) (producer consumer : Op) (sources slots : List Slot), i = j + 1 ∧
      producer.name = s!"op{j}" ∧ consumer.name = s!"op{i}" ∧
      Followed p b.epoch o producer consumer sources slots := by
  obtain ⟨j, previous, rfl, hprevious, hbefore, hbroadcast⟩ := h.arranged.follows i o ho hfollows
  have htop := (h.arranged.inside j previous hprevious).top
  obtain ⟨x, hx, rfl⟩ := Option.map_eq_some_iff.1 (List.getElem?_map ▸ hprevious)
  obtain ⟨y, hy, rfl⟩ := Option.map_eq_some_iff.1 (List.getElem?_map ▸ ho)
  have hsender := h.layout.places x (List.mem_of_getElem? hx)
  have hreceiver := h.layout.places y (List.mem_of_getElem? hy)
  have hprecedes := hbefore.precedes hsender hreceiver
  have hcells : x.2.cells .y = y.2.cells .y :=
    (Op.cells_eq_iff hsender.onMesh hreceiver.onMesh).2 ⟨hprecedes.row, hprecedes.height⟩
  have hcost : chainCost ops =
      perCore 3 0 0 (chainCores ops) + (perCore 2 3 5 (chainCores ops) + linkCost) := by
    rw [← add_assoc, perCore_add, chainCost]
  have hstart := h.empty
  obtain ⟨sources, slots, hsources, hsourceKinds, hslots, hslotKinds, hlaid, hfed⟩ :=
    exists_rowWires h.layout (hcost ▸ h.sound) (by rw [hstart]; rfl) (by rw [hstart]; rfl)
      (by rw [hstart]; rfl) h.run hx hy hcells hfollows hbroadcast
  refine ⟨j, x.2, y.2, sources, slots, rfl, h.layout.named j x hx, h.layout.named _ y hy, ?_⟩
  exact
    { device := h.synthesized.device
      precedes := hprecedes
      top := hsender.y.symm ▸ htop
      places := hreceiver
      broadcast := hbroadcast
      wide := hreceiver.width.symm ▸ hbefore.wide
      sender := hsources
      senderKinds := hsourceKinds
      receiver := hslots
      receiverKinds := hslotKinds
      laid := hlaid
      fed := hfed }

namespace Followed

variable (h : Followed p e o producer consumer sources slots) {q : Pipe}

include h

/-- A pipe into the first input of the op is the multicast of a row. -/
theorem exists_row (hq : q ∈ e.pipes.values) (hinto : e.LeadsInto q consumer 0) :
    ∃ n, n.toNat ∈ consumer.cells .y ∧ IsRowWire sources slots n q := by
  rcases h.laid q hq with havoids | ⟨n, hn, hwire⟩
  · exact absurd hinto havoids.not_leadsInto
  · exact ⟨n, (mem_opLines h.receiver.onMesh).1 hn, hwire⟩

/-- Every core of the op is fed. -/
theorem exists_pipe {core : Core} (hcore : consumer.Covers core) :
    ∃ q ∈ e.pipes.values, ∃ id ∈ q.allOutputs, ∃ b, e.buffers.get? id = some b ∧ b.core = core ∧
      e.Feeds b consumer 0 := by
  obtain ⟨s, hs, rfl⟩ := h.receiver.exists_slot hcore
  obtain ⟨b, hb, hb', hfeeds⟩ := (h.receiver.slot s hs).first
  obtain ⟨q, hq, hwire⟩ := h.fed s.core.y ((mem_opLines h.receiver.onMesh).2 (hcore.2 .y))
  refine ⟨q, hq, s.first, ?_, b, hb, hb', hfeeds⟩
  rw [hwire.allOutputs]
  exact List.mem_map.2 ⟨s, mem_onRow.2 ⟨hs, rfl⟩, rfl⟩

/-- The multicast of a row comes from the predecessor. -/
theorem leadsFrom (hwire : IsRowWire sources slots n q) : e.LeadsFrom q producer := by
  obtain ⟨id, src, hsrc, t, _, _, rfl⟩ := hwire
  obtain ⟨b, hb, _, hemits⟩ := (h.sender.slot src hsrc).output
  exact ⟨src.output, by simp [wire], b, hb, hemits⟩

/-- The multicast of a row stays on it. -/
theorem rowMulticast (hwire : IsRowWire sources slots n q)
    (hmany : 1 < (onRow slots n).length) : e.RowMulticast producer consumer n q := by
  have htop : p.firstRow.toNat ≤ consumer.y.toNat := h.precedes.row ▸ h.top
  have heth {op : Op} {core : Core} (htop : p.firstRow.toNat ≤ op.y.toNat)
      (hcore : op.Covers core) : e.device.isEthernetCore core = false := by
    rw [h.device]
    exact isEthernetCore_eq_false htop hcore
  obtain ⟨id, src, hsrc, t, ht, hrow, rfl⟩ := hwire
  have hof := h.sender.slot src hsrc
  obtain ⟨b, hb, hemits⟩ := hof.emitsOn (h.senderKinds src hsrc) (heth h.top hof.covers)
  refine ⟨⟨src.output, b, by simp [wire], hb, hrow ▸ hemits⟩,
    ⟨(onRow slots n).map (·.first), rfl, by simpa using hmany, ?_⟩, ?_⟩
  · intro id hid
    obtain ⟨t, ht, rfl⟩ := List.mem_map.1 hid
    obtain ⟨ht, hrow⟩ := mem_onRow.1 ht
    have hof := h.receiver.slot t ht
    obtain ⟨b, hb, hfeeds⟩ := hof.feedsOn (h.receiverKinds t ht) (heth htop hof.covers)
    exact ⟨b, hb, hrow ▸ hfeeds⟩
  · intro core hcore
    rw [List.mem_singleton.1 hcore]
    obtain ⟨ht, hrow⟩ := mem_onRow.1 ht
    exact ⟨(h.receiver.slot t ht).covers, hrow⟩

/-- The pass routes the multicast of every row directly. -/
theorem routed {e' : Epoch} {config : Config} {stats : RouteStats} (hlinked : e.Linked)
    (hd : e.device.gridX.toNat + e.device.gridY.toNat ≤ UInt32.size)
    (hroute : e.routePipes config .adjacent = (.ok stats, e')) (hq : q ∈ e'.pipes.values)
    (hinto : e'.LeadsInto q consumer 0) :
    e'.LeadsFrom q producer ∧ (2 ≤ p.band → 1 < q.allOutputs.length) ∧
      (1 < q.allOutputs.length →
        q.routing = some ⟨some ⟨.noc0, .noc0, .unicast, .multicast⟩, true, .exact, false⟩) := by
  have hrerouted : e.Rerouted e' := by
    have hkept := e.routePipes_rerouted config .adjacent
    rwa [hroute] at hkept
  obtain ⟨hunder, hback⟩ := hrerouted.under
  have hn : ∀ q ∈ e.pipes.values, q.routing = none := fun q hq => (hlinked.pipes q hq).unrouted
  obtain ⟨n, hrow, hwire⟩ := h.exists_row (hrerouted.mem_pipes hn hq)
    (show e.LeadsInto { q with routing := none } consumer 0 from hinto.under hback)
  have houtputs : q.allOutputs.length = (onRow slots n).length := by
    have hall : q.allOutputs = (onRow slots n).map (·.first) := hwire.allOutputs
    rw [hall, List.length_map]
  refine ⟨(h.leadsFrom hwire).under hunder, ?_, ?_⟩
  · intro hband
    have hwide := h.wide
    rw [houtputs]
    exact h.receiver.one_lt_length_onRow hrow (by omega)
  · intro hmany
    rw [houtputs] at hmany
    refine Epoch.routing_of_decided hlinked.wellKeyed hn hroute hq fun d hdecided => ?_
    refine (h.rowMulticast hwire hmany).decided h.precedes h.sender.onMesh h.receiver.onMesh
      hd ?_ hdecided
    simp [Op.broadcast, h.places.inputs, h.broadcast]

end Followed

/-- From every keystream a plan and its epoch are drawn; one of them is that of the seed. An op that
was drawn to follow its predecessor stands where the plan says, right behind the single column of
the predecessor and on the same rows. The pass succeeds, and every core of the op gets its first
input from a pipe. Each pipe into the first input comes from the predecessor, and with bands of two
columns or more has several outputs. Those with several outputs are direct multicasts on `noc0` all
the way, which are exact and have not been rebalanced. -/
theorem followers_fed_directly (p : Params) (hx : p.gridX.toNat ≤ 2 ^ 31)
    (hy : p.gridY.toNat ≤ 2 ^ 31) (index : UInt64) (stream : Keystream) :
    ∃ e plan, epochFrom p index stream = .ok e ∧
      (stream = .ofSeed (p.seed + index) → epoch p index = .ok e) ∧ p.plan stream = .ok plan ∧
      ∀ (i : Nat) (o : Planned), plan[i]? = some o → o.follows = true →
        ∃ j producer consumer, i = j + 1 ∧ e.ops.get? s!"op{j}" = some producer ∧
          e.ops.get? s!"op{i}" = some consumer ∧ o.Places p consumer ∧
          producer.Precedes consumer ∧
          ∀ config, ∃ stats e', e.routePipes config .adjacent = (.ok stats, e') ∧
            (∀ core, consumer.Covers core → ∃ q ∈ e'.pipes.values, ∃ id ∈ q.allOutputs, ∃ b,
              e'.buffers.get? id = some b ∧ b.core = core ∧ e'.Feeds b consumer 0) ∧
            ∀ q ∈ e'.pipes.values, e'.LeadsInto q consumer 0 →
              e'.LeadsFrom q producer ∧ (2 ≤ p.band → 1 < q.allOutputs.length) ∧
              (1 < q.allOutputs.length → q.routing = some
                { route := some
                    { incoming := .noc0, outgoing := .noc0, incomingVc := .unicast,
                      outgoingVc := .multicast }
                  direct := true
                  fit := .exact
                  rebalanced := false }) := by
  have hseed {e : Epoch} (he : epochFrom p index stream = .ok e) :
      stream = .ofSeed (p.seed + index) → epoch p index = .ok e := by
    rintro rfl
    exact he
  cases hempty : p.isEmpty with
  | true =>
    obtain ⟨e, he, _⟩ := exists_epochFrom hx index stream
    refine ⟨e, [], he, hseed he, if_pos hempty, fun i o ho => ?_⟩
    cases ho
  | false =>
    obtain ⟨ops, start, b, hplan, hepoch, hbuilt⟩ := exists_built hx hempty index stream
    have hsynthesized := hbuilt.synthesized
    refine ⟨b.epoch, _, hepoch, hseed hepoch, hplan, fun i o ho hfollows => ?_⟩
    obtain ⟨j, producer, consumer, sources, slots, hi, hproducer, hconsumer, h⟩ :=
      hbuilt.exists_followed ho hfollows
    refine ⟨j, producer, consumer, hi, hproducer ▸ h.sender.stored, hconsumer ▸ h.receiver.stored,
      h.places, h.precedes, fun config => ?_⟩
    obtain ⟨stats, hstats⟩ := hsynthesized.exists_routePipes hx hy config
    have hroute : b.epoch.routePipes config .adjacent =
        (.ok stats, (b.epoch.routePipes config .adjacent).2) := Prod.ext hstats rfl
    have hrerouted := b.epoch.routePipes_rerouted config .adjacent
    have hd : b.epoch.device.gridX.toNat + b.epoch.device.gridY.toNat ≤ UInt32.size := by
      rw [hsynthesized.device]
      simp only [Params.device, UInt32.size]
      omega
    refine ⟨stats, _, hroute, fun core hcore => ?_, fun q hq hinto => ?_⟩
    · obtain ⟨q, hq, id, hid, x, hx, hxcore, hfeeds⟩ := h.exists_pipe hcore
      obtain ⟨r, hr⟩ := hrerouted.exists_pipe hq
      exact ⟨_, hr, id, hid, x, hrerouted.under.1.buffer hx, hxcore, hrerouted.under.1.feeds hfeeds⟩
    · exact h.routed hsynthesized.linked hd hroute hq hinto

/-- Three ops on a small mesh with ethernet cores on its first row. -/
def shortChain : Params := { gridX := 8, gridY := 3, ops := 3, ethernet := true }

/-- The second op was drawn to follow the first, and is fed by direct multicasts. -/
theorem followers_fed_directly_shortChain :
    shortChain.gridX.toNat ≤ 2 ^ 31 ∧ shortChain.gridY.toNat ≤ 2 ^ 31 ∧
    ∃ plan o e producer consumer, shortChain.plan (.ofSeed (shortChain.seed + 3)) = .ok plan ∧
      plan[1]? = some o ∧ o.follows = true ∧
      epoch shortChain 3 = .ok e ∧ e.ops.get? "op0" = some producer ∧
      e.ops.get? "op1" = some consumer ∧ producer.Precedes consumer ∧
      ∃ stats e', e.routePipes {} .adjacent = (.ok stats, e') ∧
        ∃ q ∈ e'.pipes.values, e'.LeadsFrom q producer ∧ e'.LeadsInto q consumer 0 ∧
          1 < q.allOutputs.length ∧
          q.routing = some ⟨some ⟨.noc0, .noc0, .unicast, .multicast⟩, true, .exact, false⟩ := by
  have hx : shortChain.gridX.toNat ≤ 2 ^ 31 := by decide
  have hy : shortChain.gridY.toNat ≤ 2 ^ 31 := by decide
  have hplan : (shortChain.plan (.ofSeed (shortChain.seed + 3))).map (·[1]?) =
      .ok (some ⟨⟨2, 1, 2, 2⟩, true, ⟨true, false, false⟩⟩) := by
    decide +kernel
  obtain ⟨e, plan, _, he, hdrawn, hfollowed⟩ :=
    followers_fed_directly shortChain hx hy 3 (.ofSeed (shortChain.seed + 3))
  rw [hdrawn] at hplan
  have hsecond : plan[1]? = some ⟨⟨2, 1, 2, 2⟩, true, ⟨true, false, false⟩⟩ :=
    Except.ok.inj hplan
  obtain ⟨j, producer, consumer, hj, hproducer, hconsumer, hplaces, hprecedes, hroutes⟩ :=
    hfollowed 1 _ hsecond rfl
  obtain rfl : j = 0 := (Nat.succ.inj hj).symm
  obtain ⟨stats, e', hroute, hfed, hdirect⟩ := hroutes {}
  have hcovers : consumer.Covers ⟨consumer.chip, consumer.x, consumer.y⟩ := by
    refine ⟨rfl, ?_⟩
    rintro (_ | _)
    · exact Op.start_mem_cells hplaces.onMesh .x
    · exact Op.start_mem_cells hplaces.onMesh .y
  obtain ⟨q, hq, id, hid, b, hb, _, hfeeds⟩ := hfed _ hcovers
  obtain ⟨hfrom, hmany, hrouting⟩ := hdirect q hq ⟨id, hid, b, hb, hfeeds⟩
  have hseveral := hmany (by decide)
  exact ⟨hx, hy, plan, _, e, producer, consumer, hdrawn, hsecond, rfl, he rfl, hproducer,
    hconsumer, hprecedes, stats, e', hroute, q, hq, hfrom, ⟨id, hid, b, hb, hfeeds⟩, hseveral,
    hrouting hseveral⟩

end Synthesis

end TorusRouting
