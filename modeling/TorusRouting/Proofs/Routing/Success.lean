import TorusRouting.Proofs.Routing.AllOrNothing
import TorusRouting.Proofs.Routing.BestEffort
import TorusRouting.Proofs.Routing.Tally

/-!
# Pipes that are always routed

A pipe between buffers of ops or stages is routed if its consumer has declared what it is, and if,
between two ops, these share no column and not all of too many paths can run against a network. When
all pipes of a valid epoch are like this, no decision fails; if moreover the buffers fit the L1 of
their cores, the whole pass succeeds.
-/

namespace TorusRouting

/-- The buffer is on the way between ops. -/
def Buffer.IsStage (b : Buffer) : Prop :=
  b.kind = .queue ∨ b.kind = .relay ∨ b.kind = .prologInter

private theorem Buffer.IsStage.endpoint_ne {b : Buffer} (h : b.IsStage) (d : Device) :
    b.endpoint d ≠ .op := by
  rcases h with h | h | h
  · rw [endpoint, h]
    nofun
  · rw [endpoint, h]
    nofun
  · rw [endpoint, h]
    dsimp only
    split <;> nofun

namespace Epoch

variable {e : Epoch} {p : Pipe} {c : PipeClass} {src dst : Buffer} {producer consumer : Op}
  {input : UInt64} {box : Box} {n : Network}

/-! ## Links between buffers -/

/-- The buffer holds output of a stored op. -/
structure Emits (e : Epoch) (b : Buffer) (op : Op) : Prop where
  owner : b.owner = some (.producer op.name)
  stored : e.ops.get? op.name = some op

/-- The buffer holds input of a stored op. -/
structure Feeds (e : Epoch) (b : Buffer) (op : Op) (input : UInt64) : Prop where
  owner : b.owner = some (.consumer op.name input)
  stored : e.ops.get? op.name = some op

/-- One input goes to every row of a consumer that is no lower than the producer, in few enough
timesteps that all of them but one can be counted. -/
structure Spreads (e : Epoch) (p : Pipe) (producer consumer : Op) : Prop where
  single : p.inputs.length = 1
  timesteps : p.timesteps ≤ UInt32.size
  leads : e.Leads p producer consumer
  height : producer.height ≤ consumer.height
  rows : ∀ y ∈ consumer.cells .y, ∃ t < p.timesteps, ∃ core ∈ e.checkedCore? p t, core.y.toNat = y

/-- What a pipe joins: stages and ops, and ops in different columns of one chip. -/
inductive Links (e : Epoch) (p : Pipe) (src dst : Buffer) : Prop
  | intoStage (hsrc : src.IsStage ∨ ∃ op, e.Emits src op) (hdst : dst.IsStage)
  | fromStage {consumer : Op} {input : UInt64} (hsrc : src.IsStage)
    (hdst : e.Feeds dst consumer input) (hdeclared : Declared p consumer input)
  | ops {producer consumer : Op} {input : UInt64} (hsrc : e.Emits src producer)
    (hdst : e.Feeds dst consumer input) (hdeclared : Declared p consumer input)
    (hchip : producer.chip = consumer.chip) (hcolumns : producer.shared consumer .x = 0)
    (hcount : p.inputs.length * p.timesteps < UInt32.size ∨ e.Spreads p producer consumer)

/-- A link starts at a stage or at the output of an op. -/
theorem Links.sender (h : e.Links p src dst) : src.IsStage ∨ ∃ op, e.Emits src op := by
  cases h with
  | intoStage hsrc => exact hsrc
  | fromStage hsrc => exact Or.inl hsrc
  | ops hsrc => exact Or.inr ⟨_, hsrc⟩

/-- A link ends at a stage or at an input that its pipe declares. -/
theorem Links.receiver (h : e.Links p src dst) : dst.IsStage ∨
    ∃ consumer input, e.Feeds dst consumer input ∧ Declared p consumer input := by
  cases h with
  | intoStage _ hdst => exact Or.inl hdst
  | fromStage _ hdst hdeclared => exact Or.inr ⟨_, _, hdst, hdeclared⟩
  | ops _ hdst hdeclared => exact Or.inr ⟨_, _, hdst, hdeclared⟩

/-! ## Decisions -/

/-- The producer of a link is known, if it has one. -/
theorem exists_producerOf (h : src.IsStage ∨ ∃ op, e.Emits src op) :
    ∃ producer, e.producerOf src = .ok producer ∧ ∀ op ∈ producer, op ∈ e.ops.values := by
  unfold producerOf
  split
  · rename_i hop
    rcases h with h | ⟨op, h⟩
    · exact absurd hop (h.endpoint_ne _)
    · rw [h.owner]
      refine ⟨some op, bind_eq_ok.2 ⟨op, op_eq_ok.2 h.stored, rfl⟩, ?_⟩
      intro op' hop'
      cases hop'
      exact Table.mem_values_of_get? h.stored
  · exact ⟨none, rfl, nofun⟩

/-- A link is classified by the adjacency oracle. -/
theorem exists_classify (hp : p.Connected e) (hmesh : ∀ op ∈ e.ops.values, op.OnMesh e.device)
    (hends : e.Ends p src dst) (h : e.Links p src dst) : ∃ c, e.classify .adjacent p = .ok c := by
  rw [classify_eq hends hp.hasIdleStep]
  split
  · exact ⟨_, rfl⟩
  · obtain ⟨producer, hproducer, hstored⟩ := exists_producerOf h.sender
    suffices ∃ c, e.destClass .adjacent p src dst producer = .ok c by
      obtain ⟨c, hc⟩ := this
      exact ⟨c, bind_eq_ok.2 ⟨producer, hproducer, hc⟩⟩
    unfold destClass
    dsimp only
    split
    · exact ⟨_, rfl⟩
    · rename_i hop
      rcases h.receiver with hdst | ⟨consumer, input, hdst, hdeclared⟩
      · exact absurd hop (hdst.endpoint_ne _)
      have hconsumer := consumerOf_eq_ok.2 ⟨_, hdst.owner, hdst.stored⟩
      obtain ⟨same, hsame⟩ := exists_inputsShareCore hp
      obtain ⟨answer, hanswer⟩ : ∃ answer, e.consult .adjacent producer consumer
          ((e.sourceClass p src dst producer).pcie || e.crossesPcie src dst)
          (asks p consumer input) = .ok answer := by
        unfold consult
        split
        · rename_i op
          split
          · exact ⟨_, rfl⟩
          · exact Oracle.exists_adjacent (hmesh op (hstored op rfl))
              (hmesh consumer (Table.mem_values_of_get? hdst.stored)) _
        · exact ⟨_, rfl⟩
      rw [classifyIntoOp_declared hconsumer hdeclared]
      exact ⟨_, bind_eq_ok.2 ⟨same, hsame, bind_eq_ok.2 ⟨answer, hanswer, rfl⟩⟩⟩
    · exact ⟨_, rfl⟩
    · exact ⟨_, rfl⟩

/-- The paths to one row at least do not run against the network, so the others are counted. -/
theorem Spreads.exists_rate (h : e.Spreads p producer consumer) (hp : p.Connected e)
    (hc : c.multicast = p.isMulticast) (hbox : box.Sweeps n .y producer consumer) :
    ∃ r, e.rate p c (n, some box) = .ok r := by
  have hfew : (e.pathsBehind p n .y).card < p.timesteps := by
    obtain ⟨row, hrow, hfront⟩ := hbox.front h.height
    obtain ⟨t, ht, core, hcore, hy⟩ := h.rows _ hrow
    have hy : core.y = row := UInt32.toNat_inj.1 hy
    have hproper : e.pathsBehind p n .y ⊂
        Finset.range p.timesteps ×ˢ Finset.range p.inputs.length := by
      refine Finset.filter_ssubset.2 ⟨(t, 0), ?_, ?_⟩
      · simp [ht, h.single]
      · rintro ⟨s, hs, d, hd, hbehind⟩
        cases Option.some.inj (hcore.symm.trans hd)
        have hspan := h.leads.source 0 (by simp [h.single]) s hs .y
        refine hfront _ hspan ?_
        rw [← hy]
        exact of_decide_eq_true hbehind
    have hcard := Finset.card_lt_card hproper
    rwa [Finset.card_product, Finset.card_range, Finset.card_range, h.single, Nat.mul_one] at hcard
  rw [rate_swept hp hc h.leads hbox, if_pos (Nat.lt_of_lt_of_le hfew h.timesteps)]
  exact ⟨_, rfl⟩

/-- A classified link gets a route. -/
theorem exists_select (hp : p.Connected e)
    (hmesh : ∀ op ∈ e.ops.values, op.OnMesh e.device)
    (hd : e.device.gridX.toNat + e.device.gridY.toNat ≤ UInt32.size)
    (hends : e.Ends p src dst) (h : e.Links p src dst) (hcls : e.Classifies .adjacent p src dst c)
    (config : Config) : ∃ r, e.select config p c = .ok r := by
  by_cases hops : c.BetweenOps
  · obtain ⟨hsource, hdest⟩ := hcls.ends
    obtain ⟨producer', consumer', _, hdelivers⟩ := hcls.delivers hops.ethernet hops.dest
    cases h with
    | intoStage _ hdst => exact absurd (hdest.symm.trans hops.dest) (hdst.endpoint_ne _)
    | fromStage hsrc => exact absurd (hsource.symm.trans hops.source) (hsrc.endpoint_ne _)
    | @ops producer consumer input hsrc hdst hdeclared hchip hcolumns hcount =>
      have hjoins : e.Joins c producer consumer := by
        obtain ⟨_, hfeeds, hconsumer⟩ := consumerOf_eq_ok.1 hdelivers.receiver
        cases hdst.owner.symm.trans hfeeds
        cases hdst.stored.symm.trans hconsumer
        rcases producerOf_cases hdelivers.sender with ⟨_, _, op, howner, hop, rfl⟩ | ⟨hnone, _⟩
        · cases hsrc.owner.symm.trans howner
          cases hsrc.stored.symm.trans hop
          exact ⟨hdelivers.sourceOp, hsrc.stored, hdelivers.destOp, hdst.stored⟩
        · exact absurd (hsource.symm.trans hops.source) hnone
      have hproducer := hmesh producer (Table.mem_values_of_get? hsrc.stored)
      have hconsumer := hmesh consumer (Table.mem_values_of_get? hdst.stored)
      have hapart : ¬ (0 < producer.shared consumer .x ∧ 0 < producer.shared consumer .y) := by
        omega
      suffices ∃ r, (e.device.opRoute p.id producer consumer >>= e.rate p c) = .ok r by
        obtain ⟨r, hr⟩ := this
        rw [select_eq_rate hends hops hjoins hchip, hr]
        exact ⟨_, rfl⟩
      rcases hcount with hcount | hspreads
      · obtain ⟨way, hway⟩ := Device.exists_opRoute hproducer hconsumer hd p.id hapart
        rcases rate_cases hp c way with ⟨r, hr⟩ | ⟨_, hmany⟩
        · exact ⟨r, bind_eq_ok.2 ⟨way, hway, hr⟩⟩
        · omega
      · obtain ⟨n, ⟨hway, _⟩ | ⟨a, box, hway, hpos, _, hbox⟩⟩ :=
          Device.opRoute_cases hproducer hconsumer hd p.id hapart
        · exact ⟨_, bind_eq_ok.2 ⟨_, hway, rfl⟩⟩
        · cases a with
          | x => omega
          | y =>
            obtain ⟨r, hr⟩ := hspreads.exists_rate hp hdelivers.multicast hbox
            exact ⟨r, bind_eq_ok.2 ⟨_, hway, hr⟩⟩
  · obtain ⟨firstIn, firstOut, hselect⟩ := select_eq hends config c
    obtain ⟨r, hr⟩ := exists_selectRoute hd hops config p firstIn firstOut src.core dst.core
    rw [hselect, hr]
    exact ⟨_, rfl⟩

/-! ## Links of a growing epoch -/

/-- The ops and buffers of the first epoch are stored in the second as well. -/
structure Under (e e' : Epoch) : Prop where
  device : e'.device = e.device
  op : ∀ {name : String} {op : Op}, e.ops.get? name = some op → e'.ops.get? name = some op
  buffer : ∀ {id : BufferId} {b : Buffer},
    e.buffers.get? id = some b → e'.buffers.get? id = some b

namespace Under

variable {e' e'' : Epoch} (h : e.Under e')

/-- An epoch stores what it stores. -/
theorem refl (e : Epoch) : e.Under e := ⟨rfl, id, id⟩

/-- What is stored stays stored over two stretches of building. -/
theorem trans (h : e.Under e') (h' : e'.Under e'') : e.Under e'' :=
  ⟨h'.device.trans h.device, h'.op ∘ h.op, h'.buffer ∘ h.buffer⟩

include h

/-- A pipe stays connected while more is added. -/
theorem connected (hp : p.Connected e) : p.Connected e' :=
  { hp with
    input := fun id hid => (hp.input id hid).imp fun _ => h.buffer
    output := fun o ho id hid => (hp.output o ho id hid).imp fun _ => h.buffer }

/-- A pipe keeps its ends while more is added. -/
theorem ends (hends : e.Ends p src dst) : e'.Ends p src dst :=
  ⟨hends.source.imp fun _ hid => ⟨hid.1, h.buffer hid.2⟩,
    hends.dest.imp fun _ hid => ⟨hid.1, h.buffer hid.2⟩⟩

/-- A buffer stays the output of its op. -/
theorem emits (he : e.Emits src producer) : e'.Emits src producer := ⟨he.owner, h.op he.stored⟩

/-- A buffer stays the input of its op. -/
theorem feeds (hf : e.Feeds dst consumer input) : e'.Feeds dst consumer input :=
  ⟨hf.owner, h.op hf.stored⟩

/-- The cores of a connected pipe are the same in both epochs. -/
theorem sourceCore?_eq (hp : p.Connected e) (i : Nat) : e'.sourceCore? p i = e.sourceCore? p i := by
  unfold sourceCore?
  cases hid : p.inputs[i]? with
  | none => rfl
  | some id =>
    obtain ⟨b, hb⟩ := hp.input id (List.mem_of_getElem? hid)
    rw [Option.bind_some, Option.bind_some, hb, h.buffer hb]

private theorem checkedCore?_eq (hp : p.Connected e) (t : Nat) :
    e'.checkedCore? p t = e.checkedCore? p t := by
  unfold checkedCore?
  cases hid : (p.outputsAt t).head? with
  | none => rfl
  | some id =>
    have hout : ∃ o ∈ p.outputs, id ∈ o := by
      rw [Pipe.outputsAt] at hid
      cases ho : p.outputs[t]? with
      | none =>
        rw [ho] at hid
        cases hid
      | some o =>
        rw [ho, Option.getD_some] at hid
        exact ⟨o, List.mem_of_getElem? ho, List.mem_of_mem_head? hid⟩
    obtain ⟨o, ho, hid⟩ := hout
    obtain ⟨b, hb⟩ := hp.output o ho id hid
    rw [Option.bind_some, Option.bind_some, hb, h.buffer hb]

private theorem spreads (hp : p.Connected e) (hs : e.Spreads p producer consumer) :
    e'.Spreads p producer consumer where
  single := hs.single
  timesteps := hs.timesteps
  leads := by
    refine ⟨fun i hi => ?_, fun t ht => ?_⟩
    · rw [h.sourceCore?_eq hp]
      exact hs.leads.source i hi
    · rw [h.checkedCore?_eq hp]
      exact hs.leads.checked t ht
  height := hs.height
  rows := by
    simp only [h.checkedCore?_eq hp]
    exact hs.rows

/-- A pipe stays a link while more is added. -/
theorem links (hp : p.Connected e) (hl : e.Links p src dst) : e'.Links p src dst := by
  cases hl with
  | intoStage hsrc hdst =>
    exact .intoStage (hsrc.imp_right fun hop => hop.imp fun _ => h.emits) hdst
  | fromStage hsrc hdst hdeclared => exact .fromStage hsrc (h.feeds hdst) hdeclared
  | ops hsrc hdst hdeclared hchip hcolumns hcount =>
    exact .ops (h.emits hsrc) (h.feeds hdst) hdeclared hchip hcolumns
      (hcount.imp_right (h.spreads hp))

end Under

/-- A valid pipe without a routing that gets one. -/
structure Carries (e : Epoch) (p : Pipe) : Prop where
  unrouted : p.routing = none
  connected : p.Connected e
  cores : ∀ c ∈ p.cores, e.device.containsCore c = true
  links : ∃ src dst, e.Ends p src dst ∧ e.Links p src dst

/-- A pipe that can be routed stays so while more is added. -/
theorem Under.carries {e' : Epoch} (h : e.Under e') (hp : e.Carries p) : e'.Carries p where
  unrouted := hp.unrouted
  connected := h.connected hp.connected
  cores := h.device ▸ hp.cores
  links := by
    obtain ⟨src, dst, hends, hlinks⟩ := hp.links
    exact ⟨src, dst, h.ends hends, h.links hp.connected hlinks⟩

/-! ## The whole epoch -/

/-- The entries of the epoch are valid, its pipes are links that have no routing, and the inputs of
every op can be counted. -/
structure Linked (e : Epoch) : Prop where
  wellKeyed : e.WellKeyed
  ops : ∀ op ∈ e.ops.values, op.OnMesh e.device
  buffers : ∀ b ∈ e.buffers.values, e.checkBuffer b = .ok ()
  pipes : ∀ p ∈ e.pipes.values, e.Carries p
  inputs : ∀ op ∈ e.ops.values, (e.inputsOf op.name).length < 2 ^ 31

namespace Linked

variable (h : e.Linked)

include h

/-- A routable epoch is valid. -/
theorem valid : e.validate = .ok () :=
  validate_eq_ok.2 ⟨h.ops, h.buffers, fun p hp =>
    checkPipe_eq_ok.2 ⟨(h.pipes p hp).connected, (h.pipes p hp).cores⟩⟩

/-- No pipe of a routable epoch is routed yet. -/
theorem unrouted : ∀ p ∈ e.pipes.values, p.routing = none := fun p hp => (h.pipes p hp).unrouted

variable (hx : e.device.gridX.toNat ≤ 2 ^ 31) (hy : e.device.gridY.toNat ≤ 2 ^ 31)
  (config : Config)

include hx hy

private theorem exists_decisions : ∃ ds, e.decisions config .adjacent = .ok ds := by
  refine exists_mapM_eq_ok fun p hp => ?_
  have hcarries := h.pipes p hp
  obtain ⟨src, dst, hends, hlinks⟩ := hcarries.links
  obtain ⟨c, hc⟩ := exists_classify hcarries.connected h.ops hends hlinks
  obtain ⟨src', dst', hends', _, hcls⟩ := classifies_of_classify hc
  obtain ⟨rfl, rfl⟩ := hends.unique hends'
  have hd : e.device.gridX.toNat + e.device.gridY.toNat ≤ UInt32.size := by
    simp only [UInt32.size]
    omega
  obtain ⟨r, hr⟩ := exists_select hcarries.connected h.ops hd hends hlinks hcls config
  exact ⟨_, bind_eq_ok.2 ⟨c, hc, bind_eq_ok.2 ⟨r, hr, rfl⟩⟩⟩

/-- The pipes of a valid epoch are routed. -/
theorem exists_routeValid : ∃ stats e', e.routeValid config .adjacent = (.ok stats, e') ∧
    e.Rerouted e' := by
  obtain ⟨ds, hds⟩ := h.exists_decisions hx hy config
  rcases routeValid_fresh h.wellKeyed h.unrouted hds with
    ⟨stats, e', heq, hroute, _⟩ | ⟨_, op, hop, hmany⟩
  · exact ⟨stats, e', heq, hroute⟩
  · exact absurd (h.inputs op hop) (Nat.not_lt.2 hmany)

/-- Routing the pipes succeeds. -/
theorem exists_routePipes : ∃ stats, (e.routePipes config .adjacent).1 = .ok stats := by
  obtain ⟨stats, e', heq, _⟩ := h.exists_routeValid hx hy config
  rw [routePipes, h.valid]
  exact ⟨stats, congrArg Prod.fst heq⟩

/-- The pass succeeds if the buffers fit the L1 of their cores, and the spare L1 fits a word if
reports are logged. -/
theorem exists_run (hl : ∀ core, e.usedL1 core ≤ e.device.l1Budget.toNat) {logging : Logging}
    (hspare : logging = .on → e.spareL1 config < UInt64.size) :
    ∃ report e', e.run config .adjacent logging = (.ok report, e') := by
  obtain ⟨stats, e₁, hr, hroute⟩ := h.exists_routeValid hx hy config
  obtain ⟨l, hl⟩ := Ledger.exists_ofEpoch fun core => (Nat.min_le_left ..).trans (hl core)
  obtain ⟨report, e', _, _, heq⟩ := run_routed h.wellKeyed h.valid hl hr hroute logging
  exact ⟨_, e', heq hspare⟩

end Linked

end Epoch

end TorusRouting
