import TorusRouting.CommandLine.RouteFile
import TorusRouting.CommandLine.Synthesize
import TorusRouting.Proofs.L1.Totals
import TorusRouting.Proofs.Synthesis.Chain

/-!
# Random epochs are valid and can be routed

Ops in bands of their own share no core, so the chain stays within the L1 buffers, queues and pipes
that an empty epoch has room for. Whatever is drawn, the epoch is built, it is valid, and it is
routed; with the usual L1 the whole pass succeeds, and the routing tool takes every file of the
synthesizing tool.
-/

namespace TorusRouting.Synthesis

open CommandLine Randomness Build

variable {p : Params} {ops : List (Planned × Op)} {index : UInt64}

/-! ## The cores of a layout -/

namespace Layout

/-- Ops in columns of their own share no core. -/
theorem apart (h : Layout p ops) :
    (ops.map (·.2)).Pairwise fun a b => ∀ core, a.Covers core → ¬ b.Covers core := by
  rw [List.pairwise_map]
  refine h.columns.imp fun {a b} hcolumns core ha hb => ?_
  have hleft := (Op.mem_cells.1 (ha.2 .x)).2
  have hright := (Op.mem_cells.1 (hb.2 .x)).1
  simp only [Op.start, Op.size] at hleft hright
  omega

private theorem nodup_cores (h : Layout p ops) : (chainCores ops).Nodup := by
  rw [chainCores, List.nodup_flatMap]
  refine ⟨fun x hx => nodup_opCores (h.places x hx).onMesh, ?_⟩
  refine (List.pairwise_map.1 h.apart).imp_of_mem fun {a b} ha hb hapart core hcore hcore' => ?_
  exact hapart core ((mem_opCores (h.places a ha).onMesh).1 hcore)
    ((mem_opCores (h.places b hb).onMesh).1 hcore')

/-- No op takes more than four rows, and the bands are disjoint. -/
theorem length_cores_le (h : Layout p ops) : (chainCores ops).length ≤ 4 * p.gridX.toNat := by
  have hop : ∀ n ∈ ops.map (fun x => (opCores x.2).length), n ≤ 4 * p.band := by
    intro n hn
    obtain ⟨x, hx, rfl⟩ := List.mem_map.1 hn
    have hplace := h.places x hx
    rw [length_opCores]
    exact Nat.mul_le_mul hplace.low hplace.narrow
  calc (chainCores ops).length
    _ = (ops.map fun x => (opCores x.2).length).sum := List.length_flatMap
    _ ≤ ops.length * (4 * p.band) := by simpa using List.sum_le_card_nsmul _ _ hop
    _ = 4 * (p.opCount * p.band) := by rw [h.length, Nat.mul_left_comm]
    _ ≤ 4 * p.gridX.toNat := Nat.mul_le_mul_left 4 opCount_mul_band_le

/-- After the first op, the bands are at most half of the mesh. -/
theorem width_tail_le (h : Layout p ops) (hx : p.gridX.toNat ≤ 2 ^ 31) :
    ∀ x ∈ ops.tail, x.2.width.toNat ≤ 2 ^ 30 := by
  intro x hmem
  have hnarrow := (h.places x (List.mem_of_mem_tail hmem)).narrow
  have htwo : 2 ≤ p.opCount := by
    have hpos := List.length_pos_of_mem hmem
    rw [List.length_tail, h.length] at hpos
    omega
  have hband := (Nat.mul_le_mul_right p.band htwo).trans opCount_mul_band_le
  omega

end Layout

/-! ## Building from nothing -/

/-- An empty epoch has room for a small budget. -/
theorem sound_new (stream : Keystream) (index : UInt64) (device : Device) {left : Budget}
    (hbuffers : left.1.card + left.2.1 < 2 ^ 40) (hpipes : left.2.2 < 2 ^ 40)
    (hl1 : ∀ core, left.1.count core ≤ coreBuffers) :
    Builder.Sound { stream, epoch := .new index device } left where
  wellKeyed := ⟨List.forall_mem_nil _, List.forall_mem_nil _, List.forall_mem_nil _⟩
  buffers := List.forall_mem_nil _
  inputs := List.forall_mem_nil _
  pipes := List.forall_mem_nil _
  bufferIds := ⟨List.forall_mem_nil _, Nat.zero_lt_one⟩
  pipeIds := ⟨List.forall_mem_nil _, Nat.zero_lt_one⟩
  bufferRoom := by
    change 1 + _ + _ ≤ _
    omega
  pipeRoom := by
    change 1 + _ ≤ _
    omega
  l1 := by
    intro core
    change 0 + _ ≤ _
    rw [Nat.zero_add]
    exact Nat.mul_le_mul_left _ (hl1 core)

/-- No core of a layout has more than five buffers, and a link adds two at most. -/
theorem Layout.sound_new (h : Layout p ops) (hx : p.gridX.toNat ≤ 2 ^ 31)
    (stream : Keystream) (index : UInt64) :
    Builder.Sound { stream, epoch := .new index p.device } (chainCost ops) := by
  have hcores := h.length_cores_le
  have hlink : linkCores.length = 2 := rfl
  refine Synthesis.sound_new stream index p.device ?_ ?_ fun core => ?_
  · simp only [chainCost, linkCost, perCore, Prod.mk_add_mk, Multiset.card_add, Multiset.card_nsmul,
      Multiset.coe_card]
    omega
  · simp only [chainCost, linkCost, perCore, Prod.mk_add_mk]
    omega
  · have hcount := List.nodup_iff_count_le_one.1 h.nodup_cores core
    have hlinks := List.count_le_length (a := core) (l := linkCores)
    simp only [chainCost, linkCost, perCore, Prod.mk_add_mk, Multiset.count_add,
      Multiset.count_nsmul, Multiset.coe_count, coreBuffers]
    omega

namespace Params

variable (p : Params)

private theorem opCount_lt : p.opCount < UInt64.size := (Nat.min_le_left ..).trans_lt p.ops.toNat_lt

private theorem length_ethernet_lt : p.device.ethernet.length < UInt64.size := by
  have hx := p.gridX.toNat_lt
  rw [device]
  split
  · simp only [List.length_map, List.length_range, UInt64.size]
    omega
  · exact Nat.zero_lt_succ _

end Params

/-- What holds of every random epoch. -/
structure Synthesized (p : Params) (index : UInt64) (e : Epoch) : Prop where
  index : e.index = index
  device : e.device = p.device
  linked : e.Linked
  count : e.ops.values.length = if p.gridY ≤ p.firstRow then 0 else p.opCount
  apart : e.ops.values.Pairwise fun a b => ∀ core, a.Covers core → ¬ b.Covers core
  inputs : ∀ op, (e.inputsOf op).length ≤ 2
  fits : e.Fits
  size : e.buffers.size < 2 ^ 40
  l1 : ∀ core, e.usedL1 core ≤ bufferBytes * coreBuffers

/-- A layout that has been built. -/
theorem Builder.Sound.synthesized {b : Builder} (hb : b.Sound 0) (hindex : b.epoch.index = index)
    (hdevice : b.epoch.device = p.device)
    (hops : ∀ op ∈ b.epoch.ops.values, op.OnMesh p.device ∧ op.Fits)
    (hcount : b.epoch.ops.values.length = if p.gridY ≤ p.firstRow then 0 else p.opCount)
    (hapart : b.epoch.ops.values.Pairwise fun a b => ∀ core, a.Covers core → ¬ b.Covers core) :
    Synthesized p index b.epoch where
  index := hindex
  device := hdevice
  linked :=
    { wellKeyed := hb.wellKeyed
      ops := fun op hop => hdevice ▸ (hops op hop).1
      buffers := fun x hx => (hb.buffers x hx).1
      pipes := fun x hx => (hb.pipes x hx).1
      inputs := fun op _ => (Epoch.length_inputsOf_le hb.inputs op.name).trans_lt (by decide) }
  count := hcount
  apart := hapart
  inputs := Epoch.length_inputsOf_le hb.inputs
  fits :=
    { ethernet := hdevice ▸ p.length_ethernet_lt
      ops := by
        have hlt : b.epoch.ops.values.length < UInt64.size := by
          rw [hcount]
          split
          · decide
          · exact p.opCount_lt
        rwa [Table.values, List.length_map] at hlt
      op := by
        intro entry hentry
        have hfits := (hops _ (Table.mem_values.2 ⟨_, hentry⟩)).2
        rw [hb.wellKeyed.ops.toList_eq] at hentry
        obtain ⟨op, _, rfl⟩ := List.mem_map.1 hentry
        exact ⟨hfits.name, hfits⟩
      buffers := hb.bufferIds.size.trans b.nextBuffer.toNat_lt
      buffer := fun entry hentry => (hb.buffers _ (Table.mem_values.2 ⟨_, hentry⟩)).2
      pipes := hb.pipeIds.size.trans b.nextPipe.toNat_lt
      pipe := fun entry hentry => (hb.pipes _ (Table.mem_values.2 ⟨_, hentry⟩)).2 }
  size := by
    have hsize := hb.bufferIds.size
    have hroom := hb.bufferRoom
    omega
  l1 := fun core => (Nat.le_add_right ..).trans (hb.l1 core)

/-- A run of the construction on an empty epoch, from the ops that were drawn. -/
structure Built (p : Params) (index : UInt64) (ops : List (Planned × Op)) (start b : Builder) :
    Prop where
  arranged : Arranged p (ops.map (·.1))
  layout : Layout p ops
  empty : start.epoch = .new index p.device
  sound : start.Sound (chainCost ops)
  run : (buildChain p ops).run.run start = (.ok (), b)
  synthesized : Synthesized p index b.epoch

/-- Unless the chain is empty, an epoch is built from every keystream. -/
theorem exists_built (hx : p.gridX.toNat ≤ 2 ^ 31) (hsome : p.isEmpty = false) (index : UInt64)
    (stream : Keystream) :
    ∃ ops start b, p.plan stream = .ok (ops.map (·.1)) ∧ epochFrom p index stream = .ok b.epoch ∧
      Built p index ops start b := by
  obtain ⟨hops, hrows⟩ := isEmpty_eq_false.1 hsome
  obtain ⟨ops, stream', hdraw, hplan, harranged, hlayout⟩ := exists_drawn hsome stream
  have hne : ops ≠ [] := List.length_pos_iff.1 (hlayout.length ▸ hops)
  have hsound := hlayout.sound_new hx stream' index
  obtain ⟨b, hrun, hb, hindex, hdevice, hvalues⟩ :=
    run_buildChain hne hlayout (hlayout.width_tail_le hx) hsound rfl rfl
  refine ⟨ops, _, b, hplan, ?_, harranged, hlayout, rfl, hsound, hrun,
    hb.synthesized hindex hdevice ?_ ?_ (hvalues ▸ hlayout.apart)⟩
  · rw [epochFrom, if_neg (by simp [hsome]), hdraw]
    simp only [bind, Except.bind, hrun]
    rfl
  · intro op hop
    rw [hvalues] at hop
    obtain ⟨x, hmem, rfl⟩ := List.mem_map.1 hop
    have hplace := hlayout.places x hmem
    have hinputs : x.2.inputs.length = 2 := by
      rw [hplace.inputs]
      rfl
    exact ⟨hplace.onMesh, hplace.name, hinputs ▸ by decide⟩
  · rw [hvalues, List.length_map, hlayout.length, if_neg]
    exact fun hle => Nat.not_lt.2 (UInt32.le_iff_toNat_le.1 hle) hrows

/-- Every draw gives an epoch. -/
theorem exists_epochFrom (hx : p.gridX.toNat ≤ 2 ^ 31) (index : UInt64) (stream : Keystream) :
    ∃ e, epochFrom p index stream = .ok e ∧ Synthesized p index e := by
  cases hempty : p.isEmpty with
  | false =>
    obtain ⟨_, _, b, _, hepoch, hbuilt⟩ := exists_built hx hempty index stream
    exact ⟨b.epoch, hepoch, hbuilt.synthesized⟩
  | true =>
    have hb : Builder.Sound { stream, epoch := .new index p.device } 0 :=
      sound_new stream index p.device (by simp) (by simp) (by simp)
    have hcount : 0 = if p.gridY ≤ p.firstRow then 0 else p.opCount := by
      rw [Params.isEmpty, Bool.or_eq_true, decide_eq_true_eq, decide_eq_true_eq] at hempty
      split
      · rfl
      · exact (hempty.resolve_right ‹_›).symm
    refine ⟨_, ?_, hb.synthesized rfl rfl (List.forall_mem_nil _) hcount .nil⟩
    rw [epochFrom, if_pos hempty]
    rfl

/-! ## The pass -/

/-- The L1 of the device has its usual size. -/
def Params.UsualL1 (p : Params) : Prop :=
  p.l1Bytes = ({} : Params).l1Bytes ∧ p.reservedBytes = ({} : Params).reservedBytes

private theorem Params.UsualL1.toNat_l1Budget (h : p.UsualL1) :
    p.device.l1Budget.toNat = 1294336 := by
  have hl1 : p.device.l1Bytes = ({} : Params).l1Bytes := h.1
  have hreserved : p.device.reservedBytes = ({} : Params).reservedBytes := h.2
  rw [Device.l1Budget, hl1, hreserved]
  decide

namespace Synthesized

variable {e : Epoch} (h : Synthesized p index e) (hx : p.gridX.toNat ≤ 2 ^ 31)
  (hy : p.gridY.toNat ≤ 2 ^ 31) (config : Config)

include h hx hy

/-- The pipes of a synthesized epoch are routed. -/
theorem exists_routePipes : ∃ stats, (e.routePipes config .adjacent).1 = .ok stats :=
  h.linked.exists_routePipes (h.device ▸ hx) (h.device ▸ hy) config

/-- With the usual L1 the pass succeeds, and its report can be logged. -/
theorem exists_run (hl1 : p.UsualL1) (logging : Logging) :
    ∃ report e', e.run config .adjacent logging = (.ok report, e') := by
  have hbudget : e.device.l1Budget.toNat = 1294336 := h.device ▸ hl1.toNat_l1Budget
  have hused : ∀ core, e.usedL1 core ≤ e.device.l1Budget.toNat := by
    intro core
    rw [hbudget]
    exact (h.l1 core).trans (by decide)
  have hspare : e.spareL1 config < UInt64.size :=
    calc e.spareL1 config ≤ e.buffers.size * e.device.l1Budget.toNat := e.spareL1_le config
      _ ≤ 2 ^ 40 * 1294336 := Nat.mul_le_mul h.size.le hbudget.le
      _ < UInt64.size := by decide
  exact h.linked.exists_run (h.device ▸ hx) (h.device ▸ hy) config hused fun _ => hspare

end Synthesized

/-! ## The tools -/

/-- The routing tool accepts a file if it can route and report every epoch. -/
theorem routeFile_accepts {epochs : List Epoch} (hfits : File.Fits epochs) (r : RouteFile)
    (hrun : ∀ e ∈ epochs, ∃ report e', e.run r.config .adjacent .on = (.ok report, e')) :
    (r.run (some (File.write epochs))).code = 0 := by
  have hread : File.read (File.write epochs) = .ok epochs := by
    simpa using File.read_write_append hfits []
  obtain ⟨reports, hreports⟩ := exists_mapM_eq_ok (l := epochs)
    (f := fun e => (e.run r.config .adjacent .on).1) fun e he => by
      obtain ⟨report, e', hok⟩ := hrun e he
      exact ⟨report, congrArg Prod.fst hok⟩
  have hrel := mapM_eq_ok.1 hreports
  obtain ⟨texts, htexts⟩ := exists_mapM_eq_ok (l := reports) (f := PassReport.text)
    fun report hreport => by
      obtain ⟨e, _, hok⟩ := exists_left_of_forall₂ hrel hreport
      obtain ⟨_, _, _, _, _, _, htext⟩ := Epoch.run_eq_ok (Prod.ext hok rfl)
      exact htext rfl
  have hgather := gather_eq_ok hrel
  rw [RouteFile.run, Option.map_some, hread]
  simp only [runEpochs, List.map_map, Function.comp_def, hgather, bind, Except.bind, htexts]

/-- The synthesizing tool has no setting for the L1. -/
theorem usualL1_of_parse {args : List String} {t : Synthesize}
    (h : Synthesize.parse args = .ok t) : t.params.UsualL1 := by
  unfold Synthesize.parse at h
  cases hstart : Synthesize.tool.start args with
  | error r =>
    rw [hstart] at h
    cases h
  | ok a =>
    rw [hstart] at h
    dsimp only [bind, Except.bind] at h
    split at h
    · cases h
      exact ⟨rfl, rfl⟩
    · cases h

/-- The file of the synthesizing tool can be read back, and holds random epochs. -/
theorem exists_run_synthesize (t : Synthesize) (hx : t.params.gridX.toNat ≤ 2 ^ 31) :
    ∃ epochs, t.run = { code := 0, file := some (File.write epochs) } ∧ File.Fits epochs ∧
      ∀ e ∈ epochs, ∃ index, Synthesized t.params index e := by
  obtain ⟨epochs, hepochs⟩ := exists_mapM_eq_ok (l := List.range t.count.toNat)
    (f := fun i => epoch t.params (UInt64.ofNat i)) fun i _ =>
      (exists_epochFrom hx (UInt64.ofNat i) _).imp fun _ he => he.1
  have hrel := mapM_eq_ok.1 hepochs
  have hall : ∀ e ∈ epochs, ∃ index, Synthesized t.params index e := by
    intro e he
    obtain ⟨i, _, hi⟩ := exists_left_of_forall₂ hrel he
    obtain ⟨e', he', hsynthesized⟩ := exists_epochFrom hx (UInt64.ofNat i) _
    cases hi.symm.trans he'
    exact ⟨_, hsynthesized⟩
  refine ⟨epochs, ?_, ⟨?_, fun e he => ?_⟩, hall⟩
  · rw [Synthesize.run, hepochs]
  · rw [← hrel.length_eq, List.length_range]
    exact t.count.toNat_lt
  · obtain ⟨_, hsynthesized⟩ := hall e he
    exact hsynthesized.fits

/-- From every keystream an epoch is drawn; one of them is that of the seed. It is valid, its ops
share no core and have two inputs at most, and its pipes can be routed under every configuration.
With the usual L1 the whole pass succeeds, whether reports are logged or not. So the routing tool
accepts every file that the synthesizing tool writes. -/
theorem synthesized_routable (p : Params) (hx : p.gridX.toNat ≤ 2 ^ 31)
    (hy : p.gridY.toNat ≤ 2 ^ 31) :
    (∀ index stream, ∃ e, epochFrom p index stream = .ok e ∧
      (stream = .ofSeed (p.seed + index) → epoch p index = .ok e) ∧
      e.index = index ∧ e.device = p.device ∧ e.WellKeyed ∧ e.validate = .ok () ∧
      (e.ops.values.length = if p.gridY ≤ p.firstRow then 0 else p.opCount) ∧
      e.ops.values.Pairwise (fun a b => ∀ core, a.Covers core → ¬ b.Covers core) ∧
      (∀ op, (e.inputsOf op).length ≤ 2) ∧
      ∀ config, (∃ stats, (e.routePipes config .adjacent).1 = .ok stats) ∧
        (p.UsualL1 → ∀ logging, ∃ report, (e.run config .adjacent logging).1 = .ok report)) ∧
    ∀ args t, Synthesize.parse args = .ok t → t.params = p →
      ∃ bytes, t.run = { code := 0, file := some bytes } ∧
        ∀ r : RouteFile, (r.run (some bytes)).code = 0 := by
  constructor
  · intro index stream
    obtain ⟨e, he, h⟩ := exists_epochFrom hx index stream
    refine ⟨e, he, ?_, h.index, h.device, h.linked.wellKeyed, h.linked.valid, h.count, h.apart,
      h.inputs, fun config => ⟨h.exists_routePipes hx hy config, fun hl1 logging => ?_⟩⟩
    · rintro rfl
      exact he
    · obtain ⟨report, e', hrun⟩ := h.exists_run hx hy config hl1 logging
      exact ⟨report, congrArg Prod.fst hrun⟩
  · rintro args t hparse rfl
    obtain ⟨epochs, hrun, hfits, hall⟩ := exists_run_synthesize t hx
    refine ⟨_, hrun, fun r => routeFile_accepts hfits r fun e he => ?_⟩
    obtain ⟨_, h⟩ := hall e he
    exact h.exists_run hx hy r.config (usualL1_of_parse hparse) .on

/-- A chain on the largest mesh, with ethernet links to a second chip. -/
def largestMesh : Params :=
  { gridX := 2147483648, gridY := 2147483648, ops := 3, chips := 2, ethernet := true }

/-- The pass succeeds on the largest mesh, and the tools agree about it. -/
theorem synthesized_routable_largestMesh :
    largestMesh.gridX.toNat ≤ 2 ^ 31 ∧ largestMesh.gridY.toNat ≤ 2 ^ 31 ∧
    (∃ e, epoch largestMesh 5 = .ok e ∧ e.validate = .ok () ∧ e.ops.values.length = 3 ∧
      ∀ config logging, ∃ report, (e.run config .adjacent logging).1 = .ok report) ∧
    ∃ t bytes,
      Synthesize.parse ["epochs.bin", "--grid-size-x", "2147483648", "--grid-size-y=2147483648",
        "--num-ops", "3", "--num-chips", "2", "--ethernet"] = .ok t ∧
      t.params = largestMesh ∧ t.run = { code := 0, file := some bytes } ∧
      (({ input := "epochs.bin", output := "routed.bin", config := {} } : RouteFile).run
        (some bytes)).code = 0 := by
  have hx : largestMesh.gridX.toNat ≤ 2 ^ 31 := by decide
  have hy : largestMesh.gridY.toNat ≤ 2 ^ 31 := by decide
  obtain ⟨hepoch, htools⟩ := synthesized_routable largestMesh hx hy
  obtain ⟨e, _, he, _, _, _, hvalid, hcount, _, _, hroutes⟩ :=
    hepoch 5 (.ofSeed (largestMesh.seed + 5))
  refine ⟨hx, hy, ⟨e, he rfl, hvalid, hcount.trans (by decide), fun config => ?_⟩, ?_⟩
  · exact (hroutes config).2 ⟨rfl, rfl⟩
  · have hparse : Synthesize.parse ["epochs.bin", "--grid-size-x", "2147483648",
        "--grid-size-y=2147483648", "--num-ops", "3", "--num-chips", "2", "--ethernet"] =
        .ok ⟨"epochs.bin", 1, largestMesh⟩ := by rfl
    obtain ⟨bytes, hrun, haccepts⟩ := htools _ _ hparse rfl
    exact ⟨_, bytes, hparse, rfl, hrun, haccepts _⟩

end TorusRouting.Synthesis
