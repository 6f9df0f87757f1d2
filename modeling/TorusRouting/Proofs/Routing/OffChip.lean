import TorusRouting.Proofs.Routing.Failures

/-!
# Pipes that leave the chip

A pipe between chips goes over ethernet or over PCIe, and so does a pipe to or from host memory.
Both flags of a class are characterised once, over all ways a class comes about. A source in host
memory is found by its place and by its queue; a destination only by its place, as far as ethernet
is concerned. And a transfer between chips without ethernet counts as PCIe into queues and ops, but
not into relays and prolog intermediates: these are routed as if both ends were on one chip.
-/

namespace TorusRouting

namespace Buffer

/-- The buffer is a queue, and it lives in host memory. -/
def IsHostQueue (b : Buffer) : Prop := b.kind = .queue ∧ b.inHostMemory = true

instance (b : Buffer) : Decidable b.IsHostQueue := inferInstanceAs (Decidable (_ ∧ _))

private theorem endpoint_eq_queue {d : Device} {b : Buffer} :
    b.endpoint d = .queue ↔ b.kind = .queue := by
  unfold endpoint
  cases b.kind with
  | queue | relay => simp
  | prologInter | opInput | opOutput | opIntermediate =>
    dsimp only
    split <;> simp

end Buffer

namespace Pipe

variable {p : Pipe}

/-- The pipe takes one buffer to one buffer, in one timestep. -/
def IsSingle (p : Pipe) : Prop := ∃ i o, p.inputs = [i] ∧ p.outputs = [[o]]

private theorem isSingle_iff :
    p.IsSingle ↔ p.inputs.length = 1 ∧ p.timesteps = 1 ∧ (p.outputsAt 0).length = 1 := by
  constructor
  · rintro ⟨i, o, hin, hout⟩
    simp [timesteps, outputsAt, hin, hout]
  · rintro ⟨hin, hsteps, hout⟩
    obtain ⟨i, hin⟩ := List.length_eq_one_iff.1 hin
    obtain ⟨step, hsteps⟩ := List.length_eq_one_iff.1 hsteps
    rw [outputsAt, hsteps] at hout
    obtain ⟨o, hout⟩ := List.length_eq_one_iff.1 hout
    refine ⟨i, o, hin, ?_⟩
    rw [hsteps, ← hout]
    rfl

end Pipe

namespace Epoch

variable {e : Epoch} {config : Config} {oracle : Oracle} {p : Pipe} {c : PipeClass}
  {src dst : Buffer}

/-! ## Ethernet and PCIe -/

private theorem isEthernetPipe_iff : e.isEthernetPipe p src dst = true ↔
    e.device.ethernet ≠ [] ∧ p.IsSingle ∧ src.core.chip ≠ dst.core.chip ∧
      src.inHostMemory = false ∧ dst.core.isSystemMemory = false := by
  rw [Pipe.isSingle_iff]
  simp only [isEthernetPipe, Device.hasEthernet, Bool.and_eq_true, Bool.not_eq_true', beq_iff_eq,
    bne_iff_ne, List.isEmpty_eq_false_iff]
  tauto

private theorem crossesPcie_iff : e.crossesPcie src dst = true ↔
    e.device.ethernet = [] ∧ src.core.chip ≠ dst.core.chip := by
  simp [crossesPcie, Device.hasEthernet]

/-- A class is for ethernet exactly if the pipe qualifies: ethernet is tested before all else. -/
theorem Classifies.ethernet_iff (h : e.Classifies oracle p src dst c) :
    c.ethernet = true ↔ e.device.ethernet ≠ [] ∧ p.IsSingle ∧ src.core.chip ≠ dst.core.chip ∧
      src.inHostMemory = false ∧ dst.core.isSystemMemory = false := by
  have heq : c.ethernet = e.isEthernetPipe p src dst := by
    cases h with
    | ethernet h => exact h.symm
    | intoQueue h | intoOp h | intoStage h => exact h.symm
  rw [heq, isEthernetPipe_iff]

/-- Only into an op can a pipe be multicast, be direct or leave on `noc1`. -/
theorem Classifies.plain (h : e.Classifies oracle p src dst c) (hdest : c.dest ≠ .op) :
    c.noc1 = false ∧ c.multicast = false ∧ c.direct = false := by
  cases h with
  | ethernet | intoQueue | intoStage => exact ⟨rfl, rfl, rfl⟩
  | intoOp _ _ hop => exact absurd hop hdest

/-- A pipe goes over PCIe when it is no ethernet pipe and an end is a queue in host memory, or when
it crosses to a queue or an op of another chip without ethernet. -/
theorem Classifies.pcie_iff (h : e.Classifies oracle p src dst c) :
    c.pcie = true ↔ c.ethernet = false ∧ (src.IsHostQueue ∨ dst.IsHostQueue ∨
      (c.dest = .queue ∨ c.dest = .op) ∧ e.crossesPcie src dst = true) := by
  have hsource :
      (src.endpoint e.device == .queue && src.inHostMemory) = true ↔ src.IsHostQueue := by
    rw [Bool.and_eq_true, beq_iff_eq, Buffer.endpoint_eq_queue, Buffer.IsHostQueue]
  have hdest : dst.IsHostQueue ↔ c.dest = .queue ∧ dst.inHostMemory = true := by
    rw [h.ends.2, Buffer.endpoint_eq_queue, Buffer.IsHostQueue]
  rw [hdest]
  cases h with
  | ethernet => simp [endsClass]
  | intoQueue _ _ hqueue =>
    simp only [sourceClass, endsClass, Bool.or_eq_true, hsource, hqueue]
    tauto
  | intoOp _ _ hop =>
    simp only [feedClass, sourceClass, endsClass, Bool.or_eq_true, hsource, hop]
    tauto
  | intoStage _ _ hstage =>
    simp only [sourceClass, endsClass, hsource]
    rcases hstage with hstage | hstage <;> simp [hstage]

/-- Over PCIe only writes on the DRAM write channel are issued, on `noc0`. -/
theorem select_pcie (hends : e.Ends p src dst) (heth : c.ethernet = false) (hpcie : c.pcie = true)
    (config : Config) : e.select config p c = .ok
      ⟨some (if c.dest = .queue then dramRoute .noc0
        else ⟨.noc0, .noc1If c.noc1, .dramWrite, .data c.multicast⟩), c.direct, .exact, false⟩ := by
  obtain ⟨firstIn, firstOut, hselect⟩ := select_eq hends config c
  rw [hselect, selectRoute, heth, hpcie]
  by_cases hqueue : c.dest = .queue
  · rw [if_pos hqueue]
    simp [hqueue, bind, Except.bind, pure, Except.pure]
  · rw [if_neg hqueue]
    simp [hqueue, bind, Except.bind, pure, Except.pure]

/-- From an op or a relay to a stage of another chip, the network is the nearest one on the mesh. -/
theorem select_stage (hends : e.Ends p src dst) (heth : c.ethernet = false) (hpcie : c.pcie = false)
    (hsource : c.source = .op ∨ c.source = .relay) (hdest : c.dest = .relay ∨ c.dest = .prologInter)
    (config : Config) : e.select config p c = (do
      let n ← e.device.nearest src.core.coord dst.core.coord
      return ⟨some ⟨n, .noc1If c.noc1, .unicast, .data c.multicast⟩, c.direct, .exact, false⟩) := by
  obtain ⟨firstIn, firstOut, hselect⟩ := select_eq hends config c
  rw [hselect, selectRoute, heth, hpcie]
  rcases hsource with hsource | hsource <;> rcases hdest with hdest | hdest <;>
    simp only [hsource, hdest] <;>
    cases e.device.nearest src.core.coord dst.core.coord <;> rfl

/-! ## Host memory -/

/-- A pipe is sent over ethernet exactly if the device has ethernet cores, the pipe takes one buffer
to one buffer on another chip in one timestep, its source is not in host memory and its destination
is not at the place of system memory. A pipe from a queue in host memory, or to a queue at the place
of system memory, goes over PCIe instead; so does any other pipe to a queue in host memory, unless
it is sent over ethernet. -/
theorem ethernet_host_memory (h : e.classify oracle p = .ok c) :
    ∃ src dst, e.Ends p src dst ∧
      (c.ethernet = true ↔ e.device.ethernet ≠ [] ∧ p.IsSingle ∧ src.core.chip ≠ dst.core.chip ∧
        src.inHostMemory = false ∧ dst.core.isSystemMemory = false) ∧
      (src.IsHostQueue ∨ dst.IsHostQueue ∧ dst.core.isSystemMemory = true →
        c.pcie = true ∧ c.ethernet = false) ∧
      (dst.IsHostQueue → c.pcie = !c.ethernet) := by
  obtain ⟨src, dst, hends, _, hcls⟩ := classifies_of_classify h
  refine ⟨src, dst, hends, hcls.ethernet_iff, fun hhost => ?_, fun hhost => ?_⟩
  · have heth : c.ethernet = false := by
      rw [← Bool.not_eq_true, hcls.ethernet_iff]
      rintro ⟨_, _, _, hsrc, hdst⟩
      rcases hhost with ⟨_, hhost⟩ | ⟨_, hhost⟩
      · exact Bool.false_ne_true (hsrc.symm.trans hhost)
      · exact Bool.false_ne_true (hdst.symm.trans hhost)
    exact ⟨hcls.pcie_iff.2 ⟨heth, hhost.imp_right fun h => Or.inl h.1⟩, heth⟩
  · cases heth : c.ethernet with
    | true =>
      rw [Bool.not_true, ← Bool.not_eq_true, hcls.pcie_iff, heth]
      exact fun hpcie => Bool.noConfusion hpcie.1
    | false => exact hcls.pcie_iff.2 ⟨heth, Or.inr (Or.inl hhost)⟩

/-- A queue in host memory behind a core of chip 0, with a pipe to a relay of chip 1 and one
back. -/
def hostLink : Epoch where
  index := 0
  device := { gridX := 8, gridY := 10, ethernet := [⟨0, 0⟩], l1Bytes := 1024, reservedBytes := 0 }
  ops := .empty
  buffers := .ofList [
    (⟨1⟩, ⟨⟨1⟩, .queue, ⟨0, 2, 2⟩, some ⟨"act", .host, false⟩, none, 16, 1, 8, 8⟩),
    (⟨2⟩, ⟨⟨2⟩, .relay, ⟨1, 3, 3⟩, none, none, 16, 1, 8, 2⟩)]
  pipes := .ofList [
    (⟨10⟩, ⟨⟨10⟩, [⟨1⟩], [[⟨2⟩]], [], none⟩),
    (⟨20⟩, ⟨⟨20⟩, [⟨2⟩], [[⟨1⟩]], [], none⟩)]

/-- The queue is read over PCIe. -/
theorem ethernet_host_memory_hostLink :
    ∃ p c, hostLink.pipes.get? ⟨10⟩ = some p ∧ hostLink.classify .adjacent p = .ok c ∧
      ∃ src dst, hostLink.Ends p src dst ∧ src.IsHostQueue ∧ src.core.chip ≠ dst.core.chip ∧
        c.pcie = true ∧ c.ethernet = false := by
  have hc : hostLink.classify .adjacent ⟨⟨10⟩, [⟨1⟩], [[⟨2⟩]], [], none⟩ = .ok
      { source := .queue, dest := .relay, pcie := true, timesteps := 1 } := by decide
  have hends : hostLink.Ends ⟨⟨10⟩, [⟨1⟩], [[⟨2⟩]], [], none⟩
      ⟨⟨1⟩, .queue, ⟨0, 2, 2⟩, some ⟨"act", .host, false⟩, none, 16, 1, 8, 8⟩
      ⟨⟨2⟩, .relay, ⟨1, 3, 3⟩, none, none, 16, 1, 8, 2⟩ :=
    ⟨⟨⟨1⟩, rfl, by decide⟩, ⟨2⟩, rfl, by decide⟩
  obtain ⟨src, dst, hends', _, hhost, _⟩ := ethernet_host_memory hc
  obtain ⟨rfl, rfl⟩ := hends.unique hends'
  exact ⟨_, _, by decide, hc, _, _, hends, by decide, by decide, hhost (Or.inl (by decide))⟩

/-- On the way back it is written over ethernet, though it is no less in host memory. -/
theorem hostLink_written_over_ethernet :
    hostLink.validate = .ok () ∧
    ∃ p c, hostLink.pipes.get? ⟨20⟩ = some p ∧ hostLink.classify .adjacent p = .ok c ∧
      ∃ src dst, hostLink.Ends p src dst ∧ dst.IsHostQueue ∧ c.ethernet = true ∧
        c.pcie = false := by
  have hends : hostLink.Ends ⟨⟨20⟩, [⟨2⟩], [[⟨1⟩]], [], none⟩
      ⟨⟨2⟩, .relay, ⟨1, 3, 3⟩, none, none, 16, 1, 8, 2⟩
      ⟨⟨1⟩, .queue, ⟨0, 2, 2⟩, some ⟨"act", .host, false⟩, none, 16, 1, 8, 8⟩ :=
    ⟨⟨⟨2⟩, rfl, by decide⟩, ⟨1⟩, rfl, by decide⟩
  have hc : hostLink.classify .adjacent ⟨⟨20⟩, [⟨2⟩], [[⟨1⟩]], [], none⟩ = .ok
      { source := .relay, dest := .queue, ethernet := true, timesteps := 1 } := by decide
  exact ⟨by decide, _, _, by decide, hc, _, _, hends, by decide, rfl, rfl⟩

/-! ## Chips without ethernet between them -/

/-- On a device without ethernet cores no pipe is an ethernet pipe. One between different chips goes
over PCIe exactly if it ends at a queue or an op, or comes from a queue in host memory; its networks
then follow from the class, wherever the buffers are. From an op or a relay to a relay or a prolog
intermediate of another chip, the incoming network is the one that would be nearest on one mesh. -/
theorem pcie_between_chips (hd : e.device.ethernet = []) (h : e.classify oracle p = .ok c) :
    c.ethernet = false ∧ ∃ src dst, e.Ends p src dst ∧ (src.core.chip ≠ dst.core.chip →
      (c.pcie = true ↔ c.dest = .queue ∨ c.dest = .op ∨ src.IsHostQueue) ∧
      (c.pcie = true → ∀ config, e.select config p c = .ok
        ⟨some (if c.dest = .queue then dramRoute .noc0
          else ⟨.noc0, .noc1If c.noc1, .dramWrite, .data c.multicast⟩), c.direct, .exact, false⟩) ∧
      (c.pcie = false → c.source = .op ∨ c.source = .relay → ∀ config, e.select config p c = (do
        let n ← e.device.nearest src.core.coord dst.core.coord
        return ⟨some ⟨n, .noc0, .unicast, .unicast⟩, false, .exact, false⟩))) := by
  obtain ⟨src, dst, hends, _, hcls⟩ := classifies_of_classify h
  have heth : c.ethernet = false := by
    rw [← Bool.not_eq_true, hcls.ethernet_iff]
    exact fun hqualifies => hqualifies.1 hd
  refine ⟨heth, src, dst, hends, fun hchip => ?_⟩
  have hcross : e.crossesPcie src dst = true := crossesPcie_iff.2 ⟨hd, hchip⟩
  have hqueue (hhost : dst.IsHostQueue) : c.dest = .queue :=
    hcls.ends.2.trans (Buffer.endpoint_eq_queue.2 hhost.1)
  have hpcie : c.pcie = true ↔ c.dest = .queue ∨ c.dest = .op ∨ src.IsHostQueue := by
    rw [hcls.pcie_iff]
    tauto
  refine ⟨hpcie, select_pcie hends heth, fun hfalse hsource config => ?_⟩
  obtain ⟨hnotQueue, hnotOp, _⟩ : c.dest ≠ .queue ∧ c.dest ≠ .op ∧ ¬ src.IsHostQueue := by
    rwa [← Bool.not_eq_true, hpcie, not_or, not_or] at hfalse
  have hstage : c.dest = .relay ∨ c.dest = .prologInter := by
    cases hdest : c.dest with
    | queue => exact absurd hdest hnotQueue
    | op => exact absurd hdest hnotOp
    | relay => exact Or.inl rfl
    | prologInter => exact Or.inr rfl
  obtain ⟨hnoc1, hmulticast, hdirect⟩ := hcls.plain hnotOp
  rw [select_stage hends heth hfalse hsource hstage config, hnoc1, hmulticast, hdirect]
  rfl

/-- Two chips without ethernet: a pipe between ops of both, and a pipe between relays of both. -/
def twoChips : Epoch where
  index := 0
  device := { gridX := 8, gridY := 10, ethernet := [], l1Bytes := 1024, reservedBytes := 0 }
  ops := .ofList [
    ("prod", ⟨"prod", 0, 1, 1, 1, 1, false, false, []⟩),
    ("cons", ⟨"cons", 1, 1, 1, 1, 1, false, false, []⟩)]
  buffers := .ofList [
    (⟨1⟩, ⟨⟨1⟩, .opOutput, ⟨0, 1, 1⟩, none, some (.producer "prod"), 16, 1, 8, 2⟩),
    (⟨2⟩, ⟨⟨2⟩, .opInput, ⟨1, 1, 1⟩, none, some (.consumer "cons" 0), 16, 1, 8, 2⟩),
    (⟨3⟩, ⟨⟨3⟩, .relay, ⟨0, 3, 3⟩, none, none, 16, 1, 8, 2⟩),
    (⟨4⟩, ⟨⟨4⟩, .relay, ⟨1, 2, 3⟩, none, none, 16, 1, 8, 2⟩)]
  pipes := .ofList [
    (⟨10⟩, ⟨⟨10⟩, [⟨1⟩], [[⟨2⟩]], [], none⟩),
    (⟨20⟩, ⟨⟨20⟩, [⟨3⟩], [[⟨4⟩]], [], none⟩)]

/-- The ops are joined over PCIe. -/
theorem pcie_between_chips_twoChips :
    twoChips.device.ethernet = [] ∧
    ∃ p c, twoChips.pipes.get? ⟨10⟩ = some p ∧ twoChips.classify .adjacent p = .ok c ∧
      c.pcie = true ∧ ∀ config, twoChips.select config p c =
        .ok ⟨some ⟨.noc0, .noc0, .dramWrite, .unicast⟩, false, .exact, false⟩ := by
  have hc : twoChips.classify .adjacent ⟨⟨10⟩, [⟨1⟩], [[⟨2⟩]], [], none⟩ = .ok
      { pcie := true, sourceOp := some "prod", destOp := some "cons", timesteps := 1 } := by decide
  have hends : twoChips.Ends ⟨⟨10⟩, [⟨1⟩], [[⟨2⟩]], [], none⟩
      ⟨⟨1⟩, .opOutput, ⟨0, 1, 1⟩, none, some (.producer "prod"), 16, 1, 8, 2⟩
      ⟨⟨2⟩, .opInput, ⟨1, 1, 1⟩, none, some (.consumer "cons" 0), 16, 1, 8, 2⟩ :=
    ⟨⟨⟨1⟩, rfl, by decide⟩, ⟨2⟩, rfl, by decide⟩
  obtain ⟨_, src, dst, hends', hcross⟩ := pcie_between_chips rfl hc
  obtain ⟨rfl, rfl⟩ := hends.unique hends'
  obtain ⟨hpcie, hroute, _⟩ := hcross (by decide)
  have hset := hpcie.2 (Or.inr (Or.inl rfl))
  exact ⟨rfl, _, _, by decide, hc, hset, hroute hset⟩

/-- The relays are not, and their network is picked by a distance across the chips. -/
theorem twoChips_relays_by_distance :
    twoChips.validate = .ok () ∧ twoChips.device.ethernet = [] ∧
    ∃ p c, twoChips.pipes.get? ⟨20⟩ = some p ∧ twoChips.classify .adjacent p = .ok c ∧
      ∃ src dst, twoChips.Ends p src dst ∧ src.core.chip ≠ dst.core.chip ∧ c.pcie = false ∧
        twoChips.device.nearest src.core.coord dst.core.coord = .ok .noc1 ∧
        twoChips.select {} p c =
          .ok ⟨some ⟨.noc1, .noc0, .unicast, .unicast⟩, false, .exact, false⟩ := by
  have hends : twoChips.Ends ⟨⟨20⟩, [⟨3⟩], [[⟨4⟩]], [], none⟩
      ⟨⟨3⟩, .relay, ⟨0, 3, 3⟩, none, none, 16, 1, 8, 2⟩
      ⟨⟨4⟩, .relay, ⟨1, 2, 3⟩, none, none, 16, 1, 8, 2⟩ :=
    ⟨⟨⟨3⟩, rfl, by decide⟩, ⟨4⟩, rfl, by decide⟩
  have hc : twoChips.classify .adjacent ⟨⟨20⟩, [⟨3⟩], [[⟨4⟩]], [], none⟩ = .ok
      { source := .relay, dest := .relay, timesteps := 1 } := by decide
  exact ⟨by decide, rfl, _, _, by decide, hc, _, _, hends, by decide, rfl, by decide, by decide⟩

end Epoch

end TorusRouting
