import TorusRouting.Proofs.Mesh.Adjacency
import TorusRouting.Proofs.Routing.Selection

/-!
# What validation rules out

On a valid epoch most errors of classification and selection cannot occur. A pipe is refused for
owners or for a multicast that was not declared, and a route for two ops that share a core. There is
no partial overlap without a side to leave on, no empty pipe and no missing buffer; the ops that a
class names are stored. Counting the paths that leave a box is the only arithmetic that can leave
its word, and only with `2 ^ 32` paths or more.
-/

namespace TorusRouting

/-- The class of a pipe that is routed from op to op. -/
structure PipeClass.BetweenOps (c : PipeClass) : Prop where
  ethernet : c.ethernet = false
  pcie : c.pcie = false
  source : c.source = .op
  dest : c.dest = .op

namespace Epoch

variable {e : Epoch} {config : Config} {oracle : Oracle} {p : Pipe} {c : PipeClass}
  {firstIn firstOut : BufferId} {src dst : Core} {producer consumer : Op}

/-! ## Selection by class -/

/-- Between ops, selection is left to the geometry of the two rectangles. -/
theorem selectRoute_betweenOps (h : c.BetweenOps) :
    e.selectRoute config p c firstIn firstOut src dst = (do
      let (n, fit) ← e.opToOp p c firstIn firstOut src.coord dst.coord
      return (some ⟨n, .noc1If c.noc1, .unicast, .data c.multicast⟩, fit)) := by
  unfold selectRoute
  simp [h.ethernet, h.pcie, h.source, h.dest]

/-- Any other class is given a route. -/
theorem exists_selectRoute (hd : e.device.gridX.toNat + e.device.gridY.toNat ≤ UInt32.size)
    (h : ¬ c.BetweenOps) (config : Config) (p : Pipe) (firstIn firstOut : BufferId)
    (src dst : Core) : ∃ r, e.selectRoute config p c firstIn firstOut src dst = .ok r := by
  have hnearest (a b : Coord) (f : Network → Option Route × Fit) :
      ∃ r, (do return f (← e.device.nearest a b)) = (.ok r : Outcome _) := by
    obtain ⟨n, hn⟩ := Device.exists_nearest hd a b
    rw [hn]
    exact ⟨_, rfl⟩
  unfold selectRoute
  split
  · exact ⟨_, rfl⟩
  · rename_i heth
    split
    · split <;> exact ⟨_, rfl⟩
    · rename_i hpcie
      split
      · split
        · exact ⟨_, rfl⟩
        · dsimp only
          split
          · exact hnearest _ _ _
          · exact ⟨_, rfl⟩
          · exact ⟨_, rfl⟩
      · rename_i hqueue
        split
        · split
          · split <;> exact ⟨_, rfl⟩
          · dsimp only
            split
            · exact hnearest _ _ _
            · exact ⟨_, rfl⟩
            · exact ⟨_, rfl⟩
        · rename_i hsource
          split
          · exact ⟨_, rfl⟩
          · rename_i hinter
            split
            · exact hnearest _ _ _
            · rename_i hstage
              simp only [Bool.or_eq_true, decide_eq_true_eq, not_or] at hstage
              refine absurd ⟨by simpa using heth, by simpa using hpcie, ?_, ?_⟩ h
              · cases hs : c.source <;> simp_all
              · cases hs : c.dest <;> simp_all

/-! ## Paths that leave the box -/

private theorem exists_unfitInputs {ids : List BufferId}
    (h : ∀ id ∈ ids, ∃ b, e.buffers.get? id = some b) (p : Pipe) (box : Box) (n : Network)
    (dst : Coord) : ∃ k, e.unfitInputs p box n dst ids = .ok k ∧ k ≤ ids.length := by
  induction ids with
  | nil => exact ⟨0, rfl, Nat.le_refl 0⟩
  | cons id ids ih =>
    rw [List.forall_mem_cons] at h
    obtain ⟨b, hb⟩ := h.1
    obtain ⟨k, hk, hle⟩ := ih h.2
    refine ⟨_, bind_eq_ok.2 ⟨b, pipeBuffer_eq_ok.2 hb, bind_eq_ok.2 ⟨k, hk, rfl⟩⟩, ?_⟩
    rw [List.length_cons]
    split <;> omega

/-- The paths of a connected pipe can be counted; there is one for each input and timestep. -/
theorem exists_unfitPaths (h : p.Connected e) (multicast : Bool) (box : Box) (n : Network) :
    ∃ k, e.unfitPaths p multicast box n p.outputs p.cores = .ok k ∧
      k ≤ p.inputs.length * p.timesteps := by
  have hsteps (steps : List (List BufferId)) (cores : List Core)
      (hmem : ∀ o ∈ steps, o ∈ p.outputs) : ∃ k,
      e.unfitPaths p multicast box n steps cores = .ok k ∧ k ≤ p.inputs.length * steps.length := by
    induction steps generalizing cores with
    | nil => exact ⟨0, rfl, Nat.zero_le _⟩
    | cons o steps ih =>
      rw [List.forall_mem_cons] at hmem
      obtain ⟨first, rest, ho⟩ := List.exists_cons_of_ne_nil (h.busy o hmem.1)
      obtain ⟨b, hb⟩ := h.output o hmem.1 first (ho ▸ List.mem_cons_self ..)
      obtain ⟨here, hhere, hle⟩ := exists_unfitInputs h.input p box n
        (if multicast then (cores.head?).getD b.core else b.core).coord
      obtain ⟨k, hk, hle'⟩ := ih cores.tail hmem.2
      refine ⟨here + k, ?_, ?_⟩
      · rw [unfitPaths, ho]
        exact bind_eq_ok.2 ⟨b, pipeBuffer_eq_ok.2 hb, bind_eq_ok.2 ⟨here, hhere,
          bind_eq_ok.2 ⟨k, hk, rfl⟩⟩⟩
      · rw [List.length_cons, Nat.mul_succ]
        omega
  exact hsteps p.outputs p.cores fun _ ho => ho

/-! ## Routes between ops -/

/-- The ops that a class names are stored under these names. -/
structure Joins (e : Epoch) (c : PipeClass) (producer consumer : Op) : Prop where
  sourceOp : c.sourceOp = some producer.name
  sender : e.ops.get? producer.name = some producer
  destOp : c.destOp = some consumer.name
  receiver : e.ops.get? consumer.name = some consumer

/-- A class joins one pair of ops. -/
theorem Joins.unique {producer' consumer' : Op} (h : e.Joins c producer consumer)
    (h' : e.Joins c producer' consumer') : producer' = producer ∧ consumer' = consumer := by
  have hs : producer'.name = producer.name := Option.some.inj (h'.sourceOp.symm.trans h.sourceOp)
  have hd : consumer'.name = consumer.name := Option.some.inj (h'.destOp.symm.trans h.destOp)
  have hsender := h'.sender
  have hreceiver := h'.receiver
  rw [hs] at hsender
  rw [hd] at hreceiver
  exact ⟨Option.some.inj (hsender.symm.trans h.sender),
    Option.some.inj (hreceiver.symm.trans h.receiver)⟩

/-- In a well-keyed epoch a class of a pipe from op to op names stored ops. -/
theorem Classifies.joins {src dst : Buffer} (h : e.Classifies oracle p src dst c)
    (hk : e.WellKeyed) (hops : c.BetweenOps) :
    ∃ producer consumer, e.Joins c producer consumer := by
  obtain ⟨producer, consumer, input, hdelivers⟩ := h.delivers hops.ethernet hops.dest
  obtain ⟨_, _, hconsumer⟩ := consumerOf_eq_ok.1 hdelivers.receiver
  have hsource : src.endpoint e.device = .op := h.ends.1.symm.trans hops.source
  rcases producerOf_cases hdelivers.sender with ⟨_, _, op, _, hop, rfl⟩ | ⟨hnone, _⟩
  · refine ⟨op, consumer, hdelivers.sourceOp, ?_, hdelivers.destOp, ?_⟩
    · exact hk.ops.get?_key (Table.mem_values_of_get? hop)
    · exact hk.ops.get?_key (Table.mem_values_of_get? hconsumer)
  · exact absurd hsource hnone

/-- The fit of a pipe on the way that was found for it. -/
def rate (e : Epoch) (p : Pipe) (c : PipeClass) : Network × Option Box → Outcome (Network × Fit)
  | (n, none) => .ok (n, .exact)
  | (n, some box) => do
    let unfit ← word32 (← e.unfitPaths p c.multicast box n p.outputs p.cores)
    return (n, if unfit = 0 then .exact else .bestEffort unfit)

/-- A connected pipe is rated, unless there are too many paths to count. -/
theorem rate_cases (hp : p.Connected e) (c : PipeClass) (way : Network × Option Box) :
    (∃ r, e.rate p c way = .ok r) ∨
      e.rate p c way = fault .overflow ∧ UInt32.size ≤ p.inputs.length * p.timesteps := by
  obtain ⟨n, _ | box⟩ := way
  · exact Or.inl ⟨_, rfl⟩
  · obtain ⟨k, hk, hle⟩ := exists_unfitPaths hp c.multicast box n
    rw [rate, hk]
    change (∃ r, (word32 k >>= _) = _) ∨ (word32 k >>= _) = _ ∧ _
    by_cases hfits : k < UInt32.size
    · exact Or.inl ⟨_, bind_eq_ok.2 ⟨_, word32_of_lt hfits, rfl⟩⟩
    · refine Or.inr ⟨?_, by omega⟩
      rw [word32, if_neg hfits]
      rfl

/-- The way of a pipe between ops of one chip is the way between their rectangles. -/
theorem opToOp_eq (h : e.Joins c producer consumer) (hchip : producer.chip = consumer.chip)
    (firstIn firstOut : BufferId) (src dst : Coord) :
    e.opToOp p c firstIn firstOut src dst =
      e.device.opRoute p.id producer consumer >>= e.rate p c := by
  rw [opToOp, h.sourceOp, h.destOp]
  dsimp only
  rw [op_eq_ok.2 h.sender, op_eq_ok.2 h.receiver]
  change (if _ then _ else _) = _
  rw [if_neg (by simpa using hchip)]
  cases e.device.opRoute p.id producer consumer with
  | error f => rfl
  | ok way => obtain ⟨n, _ | box⟩ := way <;> rfl

/-- The two ops are on one chip and share lines along both axes. -/
def Collide (producer consumer : Op) : Prop :=
  producer.chip = consumer.chip ∧ 0 < producer.shared consumer .x ∧ 0 < producer.shared consumer .y

section BetweenOps

variable (hd : e.device.gridX.toNat + e.device.gridY.toNat ≤ UInt32.size)
  (h : e.Joins c producer consumer) (hproducer : producer.OnMesh e.device)
  (hconsumer : consumer.OnMesh e.device)

include hd h hproducer hconsumer

/-- Ops that collide are refused, with the numbers of lines that they share. -/
theorem opToOp_collide (hcollide : Collide producer consumer) (firstIn firstOut : BufferId)
    (src dst : Coord) : e.opToOp p c firstIn firstOut src dst =
      reject (.placementOverlap producer.name consumer.name (producer.shared consumer .x)
        (producer.shared consumer .y)) := by
  rw [opToOp_eq h hcollide.1,
    (Device.opRoute_eq_error_iff hproducer hconsumer hd p.id).2 ⟨hcollide.2, rfl⟩]
  rfl

/-- Other ops get a route, unless there are too many paths to count. -/
theorem opToOp_apart (hp : p.Connected e) (hapart : ¬ Collide producer consumer)
    (firstIn firstOut : BufferId) (src dst : Coord) :
    (∃ r, e.opToOp p c firstIn firstOut src dst = .ok r) ∨
      e.opToOp p c firstIn firstOut src dst = fault .overflow ∧
        UInt32.size ≤ p.inputs.length * p.timesteps := by
  by_cases hchip : producer.chip = consumer.chip
  · have hshared : ¬ (0 < producer.shared consumer .x ∧ 0 < producer.shared consumer .y) :=
      fun hshared => hapart ⟨hchip, hshared⟩
    obtain ⟨way, hway⟩ := Device.exists_opRoute hproducer hconsumer hd p.id hshared
    rw [opToOp_eq h hchip, hway]
    exact rate_cases hp c way
  · left
    obtain ⟨n, hn⟩ := Device.exists_nearest hd src dst
    rw [opToOp, h.sourceOp, h.destOp]
    dsimp only
    rw [op_eq_ok.2 h.sender, op_eq_ok.2 h.receiver]
    simp only [bind, Except.bind]
    rw [if_pos (by simpa using hchip), hn]
    exact ⟨_, rfl⟩

end BetweenOps

/-! ## Pipes of a valid epoch -/

/-- Selection for a pipe with stored ends. -/
theorem select_eq {src dst : Buffer} (h : e.Ends p src dst) (config : Config) (c : PipeClass) :
    ∃ firstIn firstOut, e.select config p c =
      e.selectRoute config p c firstIn firstOut src.core dst.core >>= fun x =>
        .ok ⟨x.1, c.direct, x.2, false⟩ := by
  obtain ⟨⟨i, hi, hsrc⟩, ⟨o, ho, hdst⟩⟩ := h
  refine ⟨i, o, ?_⟩
  rw [select, hi, ho]
  dsimp only
  rw [pipeBuffer_eq_ok.2 hsrc, pipeBuffer_eq_ok.2 hdst]
  rfl

/-- Selection for a class that joins two ops fails where they collide, or where there are too many
paths to count. -/
theorem select_betweenOps {src dst : Buffer} (hends : e.Ends p src dst)
    (hd : e.device.gridX.toNat + e.device.gridY.toNat ≤ UInt32.size) (hp : p.Connected e)
    (hc : c.BetweenOps) (h : e.Joins c producer consumer) (hproducer : producer.OnMesh e.device)
    (hconsumer : consumer.OnMesh e.device) (config : Config) :
    (Collide producer consumer ∧ e.select config p c =
      reject (.placementOverlap producer.name consumer.name (producer.shared consumer .x)
        (producer.shared consumer .y))) ∨
    ¬ Collide producer consumer ∧ ((∃ r, e.select config p c = .ok r) ∨
      e.select config p c = fault .overflow ∧ UInt32.size ≤ p.inputs.length * p.timesteps) := by
  obtain ⟨firstIn, firstOut, hselect⟩ := select_eq hends config c
  rw [hselect, selectRoute_betweenOps hc]
  by_cases hcollide : Collide producer consumer
  · left
    rw [opToOp_collide hd h hproducer hconsumer hcollide]
    exact ⟨hcollide, rfl⟩
  · right
    refine ⟨hcollide, ?_⟩
    rcases opToOp_apart hd h hproducer hconsumer hp hcollide firstIn firstOut src.core.coord
      dst.core.coord with ⟨r, hr⟩ | ⟨hfault, hmany⟩
    · rw [hr]
      exact Or.inl ⟨_, rfl⟩
    · rw [hfault]
      exact Or.inr ⟨rfl, hmany⟩

/-- On a valid, well-keyed epoch a pipe fails to be classified only for its owners or for a
multicast that was not declared, or where the oracle itself fails on two ops of the epoch; the
adjacency oracle never does. Its route is refused exactly if the pipe is routed from op to op and
some core belongs to both ops; the error carries the numbers of columns and rows that they share. No
arithmetic leaves its word with fewer than `2 ^ 32` paths. -/
theorem failures_of_valid (hk : e.WellKeyed) (hvalid : e.validate = .ok ())
    (hx : e.device.gridX.toNat ≤ 2 ^ 31) (hy : e.device.gridY.toNat ≤ 2 ^ 31)
    (hp : p ∈ e.pipes.values) (config : Config) (oracle : Oracle) :
    (∀ f, e.classify oracle p = .error f → ClassFlaw f ∨
      ∃ a ∈ e.ops.values, ∃ b ∈ e.ops.values, ∃ ask, oracle e.device a b ask = .error f) ∧
    (∀ f, e.classify .adjacent p = .error f → ClassFlaw f) ∧
    ∀ c, e.classify oracle p = .ok c →
      (∀ x, e.select config p c = .error (.error x) ↔ c.BetweenOps ∧
        ∃ producer consumer, e.Joins c producer consumer ∧ producer.chip = consumer.chip ∧
          (∃ core, producer.Covers core ∧ consumer.Covers core) ∧
          x = .placementOverlap producer.name consumer.name
            (producer.cells .x ∩ consumer.cells .x).card
            (producer.cells .y ∩ consumer.cells .y).card) ∧
      ∀ x, e.select config p c = .error (.fault x) →
        x = .overflow ∧ 2 ^ 32 ≤ p.inputs.length * p.timesteps := by
  have hconnected := connected_of_validate hvalid p hp
  have hmesh := onMesh_of_validate hvalid
  have hd : e.device.gridX.toNat + e.device.gridY.toNat ≤ UInt32.size := by
    simp only [UInt32.size]
    omega
  refine ⟨fun f hf => classify_flaw hconnected hf, fun f hf => ?_, fun c hc => ?_⟩
  · rcases classify_flaw hconnected hf with hflaw | ⟨a, ha, b, hb, ask, hfail⟩
    · exact hflaw
    · obtain ⟨answer, hanswer⟩ := Oracle.exists_adjacent (hmesh a ha) (hmesh b hb) ask
      cases hanswer.symm.trans hfail
  · obtain ⟨src, dst, hends, _, hcls⟩ := classifies_of_classify hc
    by_cases hops : c.BetweenOps
    · obtain ⟨producer, consumer, hjoins⟩ := hcls.joins hk hops
      have hproducer := hmesh producer (Table.mem_values_of_get? hjoins.sender)
      have hconsumer := hmesh consumer (Table.mem_values_of_get? hjoins.receiver)
      have hcollide_of {producer' consumer' : Op} (h : e.Joins c producer' consumer')
          (hchip : producer'.chip = consumer'.chip)
          (hcore : ∃ core, producer'.Covers core ∧ consumer'.Covers core) :
          Collide producer consumer := by
        obtain ⟨rfl, rfl⟩ := hjoins.unique h
        exact ⟨hchip, (Op.exists_covers_iff hproducer hchip).1 hcore⟩
      rcases select_betweenOps hends hd hconnected hops hjoins hproducer hconsumer config with
        ⟨hcollide, hs⟩ | ⟨hcollide, ⟨r, hs⟩ | ⟨hs, hmany⟩⟩
      · rw [hs]
        refine ⟨fun x => ⟨fun h => ?_, ?_⟩, nofun⟩
        · cases h
          exact ⟨hops, producer, consumer, hjoins, hcollide.1,
            (Op.exists_covers_iff hproducer hcollide.1).2 hcollide.2, rfl⟩
        · rintro ⟨_, producer', consumer', h, _, _, rfl⟩
          obtain ⟨rfl, rfl⟩ := hjoins.unique h
          rfl
      · rw [hs]
        refine ⟨fun x => ⟨nofun, ?_⟩, nofun⟩
        rintro ⟨_, _, _, h, hchip, hcore, _⟩
        exact absurd (hcollide_of h hchip hcore) hcollide
      · rw [hs]
        refine ⟨fun x => ⟨nofun, ?_⟩, fun x hfault => ?_⟩
        · rintro ⟨_, _, _, h, hchip, hcore, _⟩
          exact absurd (hcollide_of h hchip hcore) hcollide
        · cases hfault
          exact ⟨rfl, hmany⟩
    · obtain ⟨firstIn, firstOut, hselect⟩ := select_eq hends config c
      obtain ⟨r, hr⟩ := exists_selectRoute hd hops config p firstIn firstOut src.core dst.core
      rw [hselect, hr]
      exact ⟨fun x => ⟨nofun, fun h => absurd h.1 hops⟩, nofun⟩

/-- Two ops that share one column and two rows. -/
def collidingOps : Epoch where
  index := 0
  device := { gridX := 8, gridY := 8, ethernet := [], l1Bytes := 1024, reservedBytes := 0 }
  ops := .ofList [
    ("prod", ⟨"prod", 0, 1, 1, 3, 3, false, false, []⟩),
    ("cons", ⟨"cons", 0, 3, 2, 2, 2, false, false, []⟩)]
  buffers := .ofList [
    (⟨1⟩, ⟨⟨1⟩, .opOutput, ⟨0, 1, 1⟩, none, some (.producer "prod"), 16, 1, 8, 2⟩),
    (⟨2⟩, ⟨⟨2⟩, .opInput, ⟨0, 4, 3⟩, none, some (.consumer "cons" 0), 16, 1, 8, 2⟩)]
  pipes := .ofList [(⟨10⟩, ⟨⟨10⟩, [⟨1⟩], [[⟨2⟩]], [], none⟩)]

/-- Two ops on the same core are found out when their pipe is routed. -/
theorem failures_of_valid_collidingOps :
    collidingOps.WellKeyed ∧ collidingOps.validate = .ok () ∧
    ∃ p c, p ∈ collidingOps.pipes.values ∧ collidingOps.classify .adjacent p = .ok c ∧
      c.BetweenOps ∧
      collidingOps.select {} p c = reject (.placementOverlap "prod" "cons" 1 2) := by
  have hk : collidingOps.WellKeyed := by decide
  have hvalid : collidingOps.validate = .ok () := by decide
  have hp : ⟨⟨10⟩, [⟨1⟩], [[⟨2⟩]], [], none⟩ ∈ collidingOps.pipes.values := by decide
  have hc : collidingOps.classify .adjacent ⟨⟨10⟩, [⟨1⟩], [[⟨2⟩]], [], none⟩ = .ok
      { sourceOp := some "prod", destOp := some "cons", timesteps := 1 } := by decide
  have hops : PipeClass.BetweenOps
      { sourceOp := some "prod", destOp := some "cons", timesteps := 1 } := ⟨rfl, rfl, rfl, rfl⟩
  obtain ⟨_, _, hselect⟩ :=
    failures_of_valid hk hvalid (by decide) (by decide) hp {} .adjacent
  refine ⟨hk, hvalid, _, _, hp, hc, hops, ((hselect _ hc).1 _).2 ⟨hops, ?_⟩⟩
  refine ⟨⟨"prod", 0, 1, 1, 3, 3, false, false, []⟩, ⟨"cons", 0, 3, 2, 2, 2, false, false, []⟩,
    ⟨rfl, by decide, rfl, by decide⟩, rfl, ⟨⟨0, 3, 2⟩, ?_, ?_⟩, by decide⟩
  · exact ⟨rfl, by rintro (_ | _) <;> decide⟩
  · exact ⟨rfl, by rintro (_ | _) <;> decide⟩

end Epoch

end TorusRouting
