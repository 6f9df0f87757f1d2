import TorusRouting.Proofs.Routing.DirectMulticast
import TorusRouting.Proofs.Routing.Statistics
import TorusRouting.Proofs.Routing.Success

/-!
# Multicasts along a row

A producer of one column right before its consumer sends each row of the consumer from its own core
of that row. The consumer is one hop away on `noc0`, so the multicast is direct; between the
rectangles `noc0` is the closer network, too; and on one row no path runs against it. Such a
multicast does not loop back, so it is never moved to the other network.
-/

namespace TorusRouting

/-- A single column right before the other op, on the same rows of one chip. -/
structure Op.Precedes (p c : Op) : Prop where
  chip : p.chip = c.chip
  column : p.width = 1
  next : p.x.toNat + 1 = c.x.toNat
  row : p.y = c.y
  height : p.height = c.height

namespace Op.Precedes

variable {p c : Op} {d : Device} (h : p.Precedes c)

include h

/-- From the column, `noc0` enters the consumer with one hop. -/
theorem touches (hp : p.OnMesh d) (hc : c.OnMesh d) : d.Touches .noc0 .x p c where
  chip := h.chip
  thin := h.column
  lines := (cells_eq_iff hp hc).2 ⟨h.row, h.height⟩
  hop := by
    have hnext : (p.start .x).toNat + 1 = (c.start .x).toNat := h.next
    have hmesh := hc .x
    have hedge : (p.start .x).toNat + 1 ≠ (d.size .x).toNat := by omega
    exact (if_neg hedge).trans hnext

/-- Asked for rows, the oracle answers with `noc0`. -/
theorem adjacent (hp : p.OnMesh d) (hc : c.OnMesh d) :
    Oracle.adjacent d p c ⟨true, false, false⟩ = .ok (some .noc0) := by
  rw [Oracle.adjacent_eq hp hc]
  exact congrArg Except.ok (if_pos ⟨rfl, h.touches hp hc⟩)

private theorem shared_columns : p.shared c .x = 0 := by
  have hnext := h.next
  rw [shared_eq]
  simp only [start, size, h.column, UInt32.toNat_one]
  omega

/-- The way between the rectangles is on `noc0`, and its box sweeps along the shared rows. -/
theorem opRoute (hp : p.OnMesh d) (hc : c.OnMesh d)
    (hd : d.gridX.toNat + d.gridY.toNat ≤ UInt32.size) (id : PipeId) :
    ∃ box, d.opRoute id p c = .ok (.noc0, some box) ∧ box.Sweeps .noc0 .y p c := by
  have hcolumns := h.shared_columns
  obtain ⟨box, hway⟩ := Device.opRoute_of_touches hp hc (h.touches hp hc) hcolumns id
  have hnoc0 (x : Prop) [Decidable x] :
      Network.noc1If (Network.noc0 = Network.noc1 ∧ x) = .noc0 := by
    simp [Network.noc1If]
  rw [hnoc0] at hway
  obtain ⟨n, ⟨hnone, _⟩ | ⟨a, box', hway', hpos, _, hbox⟩⟩ :=
    Device.opRoute_cases hp hc hd id (by omega)
  · cases hway.symm.trans hnone
  · cases hway.symm.trans hway'
    cases a with
    | x => omega
    | y => exact ⟨box, hway, hbox⟩

end Op.Precedes

namespace Epoch

variable {e e' : Epoch} {producer consumer : Op} {n : UInt32} {q : Pipe} {src dst : Buffer}
  {c : PipeClass} {config : Config} {oracle : Oracle} {stats : RouteStats}

/-! ## Pipes along one row -/

/-- The buffer holds output of the op on one of its cores of the row. -/
structure EmitsOn (e : Epoch) (b : Buffer) (op : Op) (n : UInt32) : Prop extends e.Emits b op where
  endpoint : b.endpoint e.device = .op
  covers : op.Covers b.core
  row : b.core.y = n

/-- The buffer holds the first input of the op on one of its cores of the row. -/
structure FeedsOn (e : Epoch) (b : Buffer) (op : Op) (n : UInt32) : Prop
    extends e.Feeds b op 0 where
  endpoint : b.endpoint e.device = .op
  covers : op.Covers b.core
  row : b.core.y = n

/-- The producer of an output on a row is its op. -/
theorem EmitsOn.producerOf (h : e.EmitsOn src producer n) :
    e.producerOf src = .ok (some producer) := by
  rw [Epoch.producerOf, h.endpoint, h.owner]
  exact bind_eq_ok.2 ⟨producer, op_eq_ok.2 h.stored, rfl⟩

/-- The consumer of an input on a row is its op. -/
theorem FeedsOn.consumerOf (h : e.FeedsOn dst consumer n) :
    e.consumerOf dst = .ok (consumer, 0) := consumerOf_eq_ok.2 ⟨_, h.owner, h.stored⟩

/-- A pipe from one core into several cores of the same row. -/
structure RowMulticast (e : Epoch) (producer consumer : Op) (n : UInt32) (q : Pipe) : Prop where
  source : ∃ id b, q.inputs = [id] ∧ e.buffers.get? id = some b ∧ e.EmitsOn b producer n
  dest : ∃ ids, q.outputs = [ids] ∧ 1 < ids.length ∧
    ∀ id ∈ ids, ∃ b, e.buffers.get? id = some b ∧ e.FeedsOn b consumer n
  cores : ∀ core ∈ q.cores, consumer.Covers core ∧ core.y = n

namespace RowMulticast

variable (h : e.RowMulticast producer consumer n q)

include h

/-- The pipe of a row is connected. -/
theorem connected : q.Connected e := by
  obtain ⟨i, b, hinputs, hb, _⟩ := h.source
  obtain ⟨ids, houtputs, hmany, hids⟩ := h.dest
  refine ⟨by simp [hinputs], by simp [houtputs], ?_, ?_, ?_⟩
  · intro o ho
    rw [houtputs, List.mem_singleton] at ho
    exact ho ▸ List.ne_nil_of_length_pos (Nat.zero_lt_of_lt hmany)
  · intro id hid
    rw [hinputs, List.mem_singleton] at hid
    exact ⟨b, hid ▸ hb⟩
  · intro o ho id hid
    rw [houtputs, List.mem_singleton] at ho
    exact (hids id (ho ▸ hid)).imp fun _ hb => hb.1

/-- The buffers at the ends are on the row. -/
theorem ends (hends : e.Ends q src dst) : e.EmitsOn src producer n ∧ e.FeedsOn dst consumer n := by
  obtain ⟨i, b, hinputs, hb, hemits⟩ := h.source
  obtain ⟨ids, houtputs, hmany, hids⟩ := h.dest
  obtain ⟨⟨j, hj, hsrc⟩, k, hk, hdst⟩ := hends
  rw [Pipe.firstInput?, hinputs] at hj
  rw [Pipe.firstOutput?, houtputs] at hk
  cases hj
  cases hb.symm.trans hsrc
  obtain ⟨b', hb', hfeeds⟩ := hids k (List.mem_of_head? hk)
  cases hb'.symm.trans hdst
  exact ⟨hemits, hfeeds⟩

private theorem source_core {i : Nat} {core : Core} (hcore : core ∈ e.sourceCore? q i) :
    producer.Covers core ∧ core.y = n := by
  obtain ⟨id, b, hinputs, hb, hemits⟩ := h.source
  rw [sourceCore?, Option.mem_def, Option.bind_eq_some_iff] at hcore
  obtain ⟨id', hid', hcore⟩ := hcore
  have hmem := List.mem_of_getElem? hid'
  rw [hinputs, List.mem_singleton] at hmem
  rw [hmem, hb, Option.map_some, Option.some.injEq] at hcore
  exact hcore ▸ ⟨hemits.covers, hemits.row⟩

private theorem checked_core {t : Nat} {core : Core} (hcore : core ∈ e.checkedCore? q t) :
    consumer.Covers core ∧ core.y = n := by
  obtain ⟨ids, houtputs, _, hids⟩ := h.dest
  rw [checkedCore?, Option.mem_def, Option.map_eq_some_iff] at hcore
  obtain ⟨b, hb, rfl⟩ := hcore
  obtain ⟨id, hid, hb⟩ := Option.bind_eq_some_iff.1 hb
  have hmem : id ∈ ids := by
    have hstep := List.mem_of_head? hid
    rw [Pipe.outputsAt, houtputs] at hstep
    cases t with
    | zero => exact hstep
    | succ t => cases hstep
  obtain ⟨b', hb', hfeeds⟩ := hids id hmem
  cases hb'.symm.trans hb
  have hown : consumer.Covers b.core ∧ b.core.y = n := ⟨hfeeds.covers, hfeeds.row⟩
  split
  · cases hcores : q.cores[t]? with
    | none => exact hown
    | some core => exact h.cores core (List.mem_of_getElem? hcores)
  · exact hown

/-- The pipe of a row leads from its producer to its consumer. -/
theorem leads : e.Leads q producer consumer where
  source _ _ _ hcore := (h.source_core hcore).1.2
  checked _ _ _ hcore := (h.checked_core hcore).1.2

/-- On one row there is nothing behind. -/
theorem pathsBehind_eq_empty (m : Network) : e.pathsBehind q m .y = ∅ := by
  refine Finset.filter_eq_empty_iff.2 ?_
  rintro ⟨t, i⟩ _ ⟨s, hs, d, hd, hbehind⟩
  have hrow : (s.coord.along .y).toNat = (d.coord.along .y).toNat :=
    congrArg UInt32.toNat ((h.source_core hs).2.trans (h.checked_core hd).2.symm)
  have hbehind := of_decide_eq_true hbehind
  cases m with
  | noc0 => exact (Nat.ne_of_lt hbehind) hrow.symm
  | noc1 => exact (Nat.ne_of_lt hbehind) hrow

/-- The inputs of the pipe of a row share one core. -/
theorem inputsShareCore : e.inputsShareCore q = .ok true := by
  obtain ⟨id, b, hinputs, hb, _⟩ := h.source
  rw [Epoch.inputsShareCore, hinputs]
  exact bind_eq_ok.2 ⟨b, pipeBuffer_eq_ok.2 hb, rfl⟩

/-- The multicast is sent directly on `noc0`. -/
theorem classified (hprecedes : producer.Precedes consumer) (hp : producer.OnMesh e.device)
    (hc : consumer.OnMesh e.device) (hbroadcast : consumer.broadcast 0 = ⟨true, false, false⟩)
    (hclass : e.classify .adjacent q = .ok c) :
    c.BetweenOps ∧ e.Joins c producer consumer ∧ c.direct = true ∧ c.noc1 = false ∧
      c.loopback = false ∧ c.multicast = true := by
  obtain ⟨src, dst, hends, _, hcls⟩ := classifies_of_classify hclass
  obtain ⟨hsrc, hdst⟩ := h.ends hends
  have hchip : src.core.chip = dst.core.chip :=
    (hsrc.covers.1.trans hprecedes.chip).trans hdst.covers.1.symm
  cases hcls with
  | ethernet heth => simp [isEthernetPipe, hchip] at heth
  | intoQueue _ _ hdest => cases hdst.endpoint.symm.trans hdest
  | intoStage _ _ hdest => rcases hdest with hdest | hdest <;> cases hdst.endpoint.symm.trans hdest
  | @intoOp heth sender hsender hdest receiver input hreceiver hdeclared sameCore hsame answer
      hanswer =>
    cases hsrc.producerOf.symm.trans hsender
    cases hdst.consumerOf.symm.trans hreceiver
    cases h.inputsShareCore.symm.trans hsame
    have hpcie : ((e.sourceClass q src dst (some producer)).pcie || e.crossesPcie src dst) =
        false := by
      simp [sourceClass, hsrc.endpoint, crossesPcie, hchip]
    obtain ⟨hsingle, hfans⟩ : q.timesteps = 1 ∧ 1 < (q.outputsAt 0).length := by
      obtain ⟨ids, houtputs, hmany, _⟩ := h.dest
      simpa [Pipe.timesteps, Pipe.outputsAt, houtputs] using hmany
    have hasks : asks q consumer 0 = ⟨true, false, false⟩ := by
      simp [asks, hbroadcast, hfans]
    rw [hpcie, hasks] at hanswer
    cases (hprecedes.adjacent hp hc).symm.trans hanswer
    refine ⟨⟨rfl, hpcie, hsrc.endpoint, hdest⟩, ⟨rfl, hsrc.stored, rfl, hdst.stored⟩, ?_⟩
    simp [feedClass, PipeClass.multicast, hsingle, hasks]

/-- The multicast takes `noc0` all the way. -/
theorem decided (hprecedes : producer.Precedes consumer) (hp : producer.OnMesh e.device)
    (hc : consumer.OnMesh e.device) (hd : e.device.gridX.toNat + e.device.gridY.toNat ≤ UInt32.size)
    (hbroadcast : consumer.broadcast 0 = ⟨true, false, false⟩) {d : Decision}
    (hdecided : e.decidePipe config .adjacent q = .ok d) :
    d.cls.loopback = false ∧
      d.routing = ⟨some ⟨.noc0, .noc0, .unicast, .multicast⟩, true, .exact, false⟩ := by
  obtain ⟨hclass, hselect, _⟩ := decidePipe_eq_ok hdecided
  obtain ⟨hops, hjoins, hdirect, hnoc1, hloopback, hmulticast⟩ :=
    h.classified hprecedes hp hc hbroadcast hclass
  obtain ⟨src, dst, hends, _, _⟩ := classifies_of_classify hclass
  obtain ⟨box, hway, hbox⟩ := hprecedes.opRoute hp hc hd q.id
  refine ⟨hloopback, ?_⟩
  have hdata : d.cls.multicast = q.isMulticast := by
    obtain ⟨ids, houtputs, hmany, _⟩ := h.dest
    simp [hmulticast, Pipe.isMulticast, houtputs, hmany]
  have hrate : e.rate q d.cls (.noc0, some box) = .ok (.noc0, .exact) := by
    rw [rate_swept h.connected hdata h.leads hbox, h.pathsBehind_eq_empty]
    rfl
  rw [select_eq_rate hends hops hjoins hprecedes.chip, hway] at hselect
  change (e.rate q d.cls (.noc0, some box) >>= _) = _ at hselect
  rw [hrate, hnoc1, hdirect, hmulticast] at hselect
  exact (Except.ok.inj hselect).symm

end RowMulticast

/-! ## After the pass -/

/-- Routing keeps all of a pipe but its routing. -/
theorem Rerouted.mem_pipes (h : e.Rerouted e') (hn : ∀ p ∈ e.pipes.values, p.routing = none)
    (hq : q ∈ e'.pipes.values) : { q with routing := none } ∈ e.pipes.values := by
  obtain ⟨id, hid⟩ := Table.mem_values.1 hq
  have hget := Table.get?_eq_some_iff.2 hid
  have hkey : id ∈ e.pipes.keys := h.keys ▸ Table.mem_keys_iff.2 ⟨q, hget⟩
  obtain ⟨p, hp⟩ := Table.mem_keys_iff.1 hkey
  obtain ⟨q', hq', heq, _⟩ := h.pipe id p hp
  cases hget.symm.trans hq'
  have hmem := Table.mem_values_of_get? hp
  have hp : p = { q with routing := none } := by
    rw [heq, ← hn p hmem]
  exact hp ▸ hmem

/-- A pipe is still there after routing, and only its routing has changed. -/
theorem Rerouted.exists_pipe (h : e.Rerouted e') (hq : q ∈ e.pipes.values) :
    ∃ r, { q with routing := r } ∈ e'.pipes.values := by
  obtain ⟨id, hid⟩ := Table.mem_values.1 hq
  obtain ⟨q', hq', heq, _⟩ := h.pipe id q (Table.get?_eq_some_iff.2 hid)
  exact ⟨q'.routing, heq ▸ Table.mem_values_of_get? hq'⟩

/-- What was decided for a pipe without loopback stays. -/
theorem routing_of_decided {r : Routing} (hk : e.WellKeyed)
    (hn : ∀ p ∈ e.pipes.values, p.routing = none)
    (h : e.routePipes config oracle = (.ok stats, e')) (hq : q ∈ e'.pipes.values)
    (hdecided : ∀ d, e.decidePipe config oracle { q with routing := none } = .ok d →
      d.cls.loopback = false ∧ d.routing = r) : q.routing = some r := by
  obtain ⟨ds, e₁, hds, _, _, hsettled⟩ := routePipes_settles hk hn h
  obtain ⟨d, hd, hq⟩ := exists_left_of_forall₂ hsettled hq
  obtain ⟨hloopback, hr⟩ := hdecided d hq.decided
  have hkept : d.pipe ∉ (e₁.tallyFlips ds).map (·.pipe) := by
    intro hmem
    obtain ⟨_, _, _, _, _, hloops⟩ := flips_of_decision (decisions_nodup hk hds) hd hmem
    rw [hloopback] at hloops
    cases hloops
  rw [hq.routing, if_neg hkept, hr]

end Epoch

end TorusRouting
