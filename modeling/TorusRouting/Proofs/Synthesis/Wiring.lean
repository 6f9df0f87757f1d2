import TorusRouting.Proofs.Synthesis.Building

/-!
# The data paths of one op

Every step that feeds the buffers of an op, or takes data from them, adds pipes that can be routed.
Costs are counted per core: of a slot, each step adds at most one further L1 buffer.
-/

namespace TorusRouting

/-- The cores of an op on the mesh are on the mesh. -/
theorem Op.Covers.containsCore {op : Op} {d : Device} {core : Core} (h : op.Covers core)
    (hop : op.OnMesh d) : d.containsCore core = true := by
  have hx := (Op.mem_cells.1 (h.2 .x)).2
  have hy := (Op.mem_cells.1 (h.2 .y)).2
  have hx' := (hop .x).2
  have hy' := (hop .y).2
  simp only [Device.containsCore, Bool.and_eq_true, decide_eq_true_eq, UInt32.lt_iff_toNat_lt]
  exact ⟨Nat.lt_of_lt_of_le hx hx', Nat.lt_of_lt_of_le hy hy'⟩

namespace Synthesis

open Randomness Build

/-! ## Cores of an op -/

section

variable {op : Op} {d : Device} {core : Core}

/-- The lines of an op along an axis. -/
def opLines (op : Op) (a : Axis) : List UInt32 :=
  (List.range (op.size a).toNat).map fun i => UInt32.ofNat ((op.start a).toNat + i)

/-- The cores of an op, row by row. -/
def opCores (op : Op) : List Core :=
  (opLines op .y).flatMap fun y => (opLines op .x).map fun x => ⟨op.chip, x, y⟩

/-- The lines of an op on the mesh stay in the word. -/
theorem linesOf_eq (hop : op.OnMesh d) (a : Axis) : linesOf op a = .ok (opLines op a) := by
  obtain ⟨l, hl, hlast⟩ := Op.exists_last hop a
  rw [linesOf, hl, opLines]
  have hcount : l.toNat + 1 - (op.start a).toNat = (op.size a).toNat := by omega
  exact congrArg (fun n => Except.ok ((List.range n).map fun i =>
    UInt32.ofNat ((op.start a).toNat + i))) hcount

/-- The cores of an op on the mesh are listed. -/
theorem coresOf_eq (hop : op.OnMesh d) : coresOf op = .ok (opCores op) := by
  refine bind_eq_ok.2 ⟨_, linesOf_eq hop .y, bind_eq_ok.2 ⟨(opLines op .y).map fun y =>
    (opLines op .x).map fun x => ⟨op.chip, x, y⟩, ?_, congrArg Except.ok List.flatMap_def.symm⟩⟩
  refine mapM_eq_ok.2 (List.forall₂_map_right_iff.2 (List.forall₂_same.2 fun y _ => ?_))
  exact bind_eq_ok.2 ⟨_, linesOf_eq hop .x, rfl⟩

private theorem toNat_line (hop : op.OnMesh d) {a : Axis} {i : Nat} (hi : i < (op.size a).toNat) :
    (UInt32.ofNat ((op.start a).toNat + i)).toNat = (op.start a).toNat + i := by
  have hmesh := (hop a).2
  have hsize := (d.size a).toNat_lt_size
  exact UInt32.toNat_ofNat_of_lt' (by omega)

/-- The lines of an op are those of its cells. -/
theorem mem_opLines (hop : op.OnMesh d) {a : Axis} {n : UInt32} :
    n ∈ opLines op a ↔ n.toNat ∈ op.cells a := by
  rw [opLines, List.mem_map, Op.mem_cells]
  constructor
  · rintro ⟨i, hi, rfl⟩
    rw [List.mem_range] at hi
    rw [toNat_line hop hi]
    omega
  · rintro ⟨hfirst, hlast⟩
    refine ⟨n.toNat - (op.start a).toNat, List.mem_range.2 (by omega), ?_⟩
    rw [Nat.add_sub_cancel' hfirst, UInt32.ofNat_toNat]

/-- No line is listed twice. -/
theorem nodup_opLines (hop : op.OnMesh d) (a : Axis) : (opLines op a).Nodup := by
  refine List.Nodup.map_on (fun i hi j hj heq => ?_) List.nodup_range
  rw [List.mem_range] at hi hj
  have hnat := congrArg UInt32.toNat heq
  rw [toNat_line hop hi, toNat_line hop hj] at hnat
  omega

/-- There are as many lines as cells. -/
theorem length_opLines (op : Op) (a : Axis) : (opLines op a).length = (op.size a).toNat := by
  rw [opLines, List.length_map, List.length_range]

/-- The listed cores are those of the rectangle. -/
theorem mem_opCores (hop : op.OnMesh d) : core ∈ opCores op ↔ op.Covers core := by
  rw [opCores, List.mem_flatMap]
  constructor
  · rintro ⟨y, hy, hcore⟩
    obtain ⟨x, hx, rfl⟩ := List.mem_map.1 hcore
    refine ⟨rfl, ?_⟩
    rintro (_ | _)
    · exact (mem_opLines hop).1 hx
    · exact (mem_opLines hop).1 hy
  · obtain ⟨chip, x, y⟩ := core
    rintro ⟨rfl, hcells⟩
    exact ⟨y, (mem_opLines hop).2 (hcells .y), List.mem_map.2
      ⟨x, (mem_opLines hop).2 (hcells .x), rfl⟩⟩

/-- There are as many cores as the rectangle has. -/
theorem length_opCores (op : Op) : (opCores op).length = op.height.toNat * op.width.toNat := by
  simp [opCores, List.length_flatMap, length_opLines, Op.size]

/-- No core is listed twice. -/
theorem nodup_opCores (hop : op.OnMesh d) : (opCores op).Nodup := by
  rw [opCores, List.nodup_flatMap]
  refine ⟨fun y _ => (nodup_opLines hop .x).map fun x x' heq => (Core.mk.inj heq).2.1, ?_⟩
  refine (nodup_opLines hop .y).imp fun {y y'} hne core hmem hmem' => ?_
  obtain ⟨_, _, rfl⟩ := List.mem_map.1 hmem
  obtain ⟨_, _, heq⟩ := List.mem_map.1 hmem'
  exact hne (Core.mk.inj heq).2.2.symm

/-- Every line of an op has one of its cores. -/
theorem exists_mem_opCores (hop : op.OnMesh d) {a : Axis} {n : Nat} (hn : n ∈ op.cells a) :
    ∃ core ∈ opCores op, (core.coord.along a).toNat = n := by
  have hcells := Op.mem_cells.1 hn
  have hmesh := (hop a).2
  have hsize := (d.size a).toNat_lt_size
  have hword : (UInt32.ofNat n).toNat = n := UInt32.toNat_ofNat_of_lt' (by omega)
  have hfirst (b : Axis) : (op.start b).toNat ∈ op.cells b := by
    have hpos := (hop b).1
    exact Op.mem_cells.2 (by omega)
  cases a with
  | x =>
    refine ⟨⟨op.chip, UInt32.ofNat n, op.y⟩, (mem_opCores hop).2 ⟨rfl, ?_⟩, hword⟩
    rintro (_ | _)
    · exact hword.symm ▸ hn
    · exact hfirst .y
  | y =>
    refine ⟨⟨op.chip, op.x, UInt32.ofNat n⟩, (mem_opCores hop).2 ⟨rfl, ?_⟩, hword⟩
    rintro (_ | _)
    · exact hfirst .x
    · exact hword.symm ▸ hn

end

/-! ## Slots -/

variable {e : Epoch} {op producer consumer : Op} {s : Slot} {slots sources : List Slot}

/-- The slot is on a core of the op, and its buffers are stored. -/
structure Slot.Of (s : Slot) (e : Epoch) (op : Op) : Prop where
  covers : op.Covers s.core
  output : ∃ x, e.buffers.get? s.output = some x ∧ x.core = s.core ∧ e.Emits x op
  first : ∃ x, e.buffers.get? s.first = some x ∧ x.core = s.core ∧ e.Feeds x op 0
  second : ∃ x, e.buffers.get? s.second = some x ∧ x.core = s.core ∧ e.Feeds x op 1

/-- A slot of an op stays one while more is added. -/
theorem Slot.Of.under {e' : Epoch} (hs : s.Of e op) (h : e.Under e') : s.Of e' op where
  covers := hs.covers
  output := by
    obtain ⟨x, hx, hcore, hemits⟩ := hs.output
    exact ⟨x, h.buffer hx, hcore, h.emits hemits⟩
  first := by
    obtain ⟨x, hx, hcore, hfeeds⟩ := hs.first
    exact ⟨x, h.buffer hx, hcore, h.feeds hfeeds⟩
  second := by
    obtain ⟨x, hx, hcore, hfeeds⟩ := hs.second
    exact ⟨x, h.buffer hx, hcore, h.feeds hfeeds⟩

/-- The slots of an op, in the order of its cores. -/
structure SlotsOf (slots : List Slot) (e : Epoch) (op : Op) : Prop where
  onMesh : op.OnMesh e.device
  cores : slots.map (·.core) = opCores op
  slot : ∀ s ∈ slots, s.Of e op

namespace SlotsOf

/-- The slots of an op stay its slots while more is added. -/
theorem under {e' : Epoch} (hs : SlotsOf slots e op) (h : e.Under e') : SlotsOf slots e' op :=
  ⟨h.device.symm ▸ hs.onMesh, hs.cores, fun s hmem => (hs.slot s hmem).under h⟩

/-- An op has one slot for each core it covers. -/
theorem length (hs : SlotsOf slots e op) : slots.length = op.height.toNat * op.width.toNat := by
  rw [← length_opCores, ← hs.cores, List.length_map]

/-- An op has slots. -/
theorem ne_nil (hs : SlotsOf slots e op) : slots ≠ [] := by
  have hwidth := (hs.onMesh .x).1
  have hheight := (hs.onMesh .y).1
  have hpos : 0 < slots.length := hs.length ▸ Nat.mul_pos hheight hwidth
  exact List.length_pos_iff.1 hpos

private theorem length_lt (hs : SlotsOf slots e op) : slots.length < UInt64.size := by
  rw [hs.length]
  exact Nat.mul_lt_mul'' op.height.toNat_lt op.width.toNat_lt

/-- Every line of the op has a slot. -/
theorem exists_on (hs : SlotsOf slots e op) {a : Axis} {n : Nat} (hn : n ∈ op.cells a) :
    ∃ s ∈ slots, (s.core.coord.along a).toNat = n := by
  obtain ⟨core, hcore, hline⟩ := exists_mem_opCores hs.onMesh hn
  rw [← hs.cores] at hcore
  obtain ⟨s, hs, rfl⟩ := List.mem_map.1 hcore
  exact ⟨s, hs, hline⟩

/-- A grid with an op on it is not empty. -/
theorem grid (hs : SlotsOf slots e op) :
    0 < e.device.gridX.toNat ∧ 0 < e.device.gridY.toNat := by
  have hx := hs.onMesh .x
  have hy := hs.onMesh .y
  exact ⟨Nat.lt_of_lt_of_le hx.1 (Nat.le_trans (Nat.le_add_left ..) hx.2),
    Nat.lt_of_lt_of_le hy.1 (Nat.le_trans (Nat.le_add_left ..) hy.2)⟩

end SlotsOf

/-! ## Pipes -/

/-- Timesteps with one output each need no declaration. -/
theorem declared_of_single {p : Pipe} (h : ∀ o ∈ p.outputs, o.length = 1) (consumer : Op)
    (input : UInt64) : Epoch.Declared p consumer input := by
  have hfirst : ¬ 1 < (p.outputsAt 0).length := by
    rw [Pipe.outputsAt]
    cases ho : p.outputs[0]? with
    | none => simp
    | some o => simp [h o (List.mem_of_getElem? ho)]
  exact ⟨fun hfans => absurd hfans hfirst, fun o ho => iff_of_false (by simp [h o ho]) hfirst⟩

/-- A pipe between two stored buffers. -/
theorem spends_unicast {i o : BufferId} {core : Core} {src dst : Buffer}
    (hsrc : e.buffers.get? i = some src) (hdst : e.buffers.get? o = some dst)
    (hcore : e.device.containsCore core = true)
    (h : ∀ p : Pipe, p.outputs = [[o]] → e.Links p src dst) :
    (unicast i o core).Spends pipeCost e fun _ _ => True := by
  refine spends_pipe fun id => ⟨⟨rfl, ⟨?_, ?_, ?_, ?_, ?_⟩, ?_, src, dst, ⟨?_, ?_⟩, h _ rfl⟩, ?_⟩
  · simp
  · simp
  · simp
  · simpa using ⟨src, hsrc⟩
  · simpa using ⟨dst, hdst⟩
  · simpa using hcore
  · exact ⟨i, rfl, hsrc⟩
  · exact ⟨o, rfl, hdst⟩
  · constructor <;> simp [UInt64.size]

/-- A pipe from a stage into a buffer of an op. -/
theorem spends_feed {i o : BufferId} {core : Core} {src dst : Buffer} {input : UInt64}
    (hsrc : e.buffers.get? i = some src) (hstage : src.IsStage)
    (hdst : e.buffers.get? o = some dst) (hfeeds : e.Feeds dst op input)
    (hcore : e.device.containsCore core = true) :
    (unicast i o core).Spends pipeCost e fun _ _ => True := by
  refine spends_unicast hsrc hdst hcore fun p hp => .fromStage hstage hfeeds ?_
  exact declared_of_single (by simp [hp]) op input

/-- A pipe from a slot into a stage. -/
theorem spends_output {o : BufferId} {dst : Buffer} (hs : s.Of e op) (hop : op.OnMesh e.device)
    (hdst : e.buffers.get? o = some dst) (hstage : dst.IsStage) :
    (unicast s.output o s.core).Spends pipeCost e fun _ _ => True := by
  obtain ⟨src, hsrc, _, hemits⟩ := hs.output
  exact spends_unicast hsrc hdst (hs.covers.containsCore hop) fun _ _ =>
    .intoStage (Or.inr ⟨op, hemits⟩) hstage

/-- What pipes from slots of one op into slots of another have in common. -/
structure Wired (e : Epoch) (producer consumer : Op) (sources : List Slot)
    (steps : List (List Slot)) : Prop where
  sources_ne : sources ≠ []
  source : ∀ s ∈ sources, s.Of e producer
  steps_ne : steps ≠ []
  busy : ∀ step ∈ steps, step ≠ []
  slot : ∀ step ∈ steps, ∀ s ∈ step, s.Of e consumer
  onMesh : consumer.OnMesh e.device
  chip : producer.chip = consumer.chip
  columns : producer.shared consumer .x = 0

/-- The pipe from slots into the first inputs of others. -/
def wire (id : PipeId) (sources : List Slot) (steps : List (List Slot)) (cores : List Core) :
    Pipe :=
  ⟨id, sources.map (·.output), steps.map (·.map (·.first)), cores, none⟩

namespace Wired

variable {steps : List (List Slot)} {cores : List Core}

/-- A wire is connected to the buffers at its ends. -/
theorem connected (h : Wired e producer consumer sources steps) (id : PipeId) :
    (wire id sources steps cores).Connected e where
  inputs := by simpa [wire] using h.sources_ne
  outputs := by simpa [wire] using h.steps_ne
  busy := by simpa [wire] using h.busy
  input := by
    intro i hi
    obtain ⟨s, hs, rfl⟩ := List.mem_map.1 hi
    exact (h.source s hs).output.imp fun _ hx => hx.1
  output := by
    intro o ho i hi
    obtain ⟨step, hstep, rfl⟩ := List.mem_map.1 ho
    obtain ⟨s, hs, rfl⟩ := List.mem_map.1 hi
    exact (h.slot step hstep s hs).first.imp fun _ hx => hx.1

/-- The ends of the pipe are the first slots of both sides. -/
theorem exists_ends (h : Wired e producer consumer sources steps) (id : PipeId)
    (cores : List Core) :
    ∃ src dst, e.Ends (wire id sources steps cores) src dst ∧ e.Emits src producer ∧
      e.Feeds dst consumer 0 := by
  obtain ⟨s, ss, rfl⟩ := List.exists_cons_of_ne_nil h.sources_ne
  obtain ⟨step, steps', rfl⟩ := List.exists_cons_of_ne_nil h.steps_ne
  obtain ⟨t, ts, rfl⟩ := List.exists_cons_of_ne_nil (h.busy step (List.mem_cons_self ..))
  obtain ⟨src, hsrc, _, hemits⟩ := (h.source s (List.mem_cons_self ..)).output
  obtain ⟨dst, hdst, _, hfeeds⟩ :=
    (h.slot _ (List.mem_cons_self ..) t (List.mem_cons_self ..)).first
  exact ⟨src, dst, ⟨⟨_, rfl, hsrc⟩, ⟨_, rfl, hdst⟩⟩, hemits, hfeeds⟩

/-- A declared pipe with countable paths is added at its own cost. -/
theorem spends (h : Wired e producer consumer sources steps)
    (hcores : ∀ c ∈ cores, e.device.containsCore c = true)
    (hdeclared : ∀ id, Epoch.Declared (wire id sources steps cores) consumer 0)
    (hcount : sources.length * steps.length < UInt32.size ∨
      ∀ id, e.Spreads (wire id sources steps cores) producer consumer)
    (hfits : ∀ id, (wire id sources steps cores).Fits) :
    (pipe (sources.map (·.output)) (steps.map (·.map (·.first))) cores).Spends pipeCost e
      fun _ _ => True := by
  refine spends_pipe fun id => ⟨⟨rfl, h.connected id, hcores, ?_⟩, hfits id⟩
  obtain ⟨src, dst, hends, hemits, hfeeds⟩ := h.exists_ends id cores
  refine ⟨src, dst, hends, .ops hemits hfeeds (hdeclared id) h.chip h.columns ?_⟩
  refine hcount.imp (fun hfew => ?_) fun hspreads => hspreads id
  simpa [wire, Pipe.timesteps] using hfew

end Wired

/-- Few slots on either side are joined without a declaration. -/
theorem spends_join {t : Slot} (h : Wired e producer consumer sources [[t]])
    (hfew : sources.length ≤ 2) :
    (pipe (sources.map (·.output)) [[t.first]] [t.core]).Spends pipeCost e fun _ _ => True := by
  have ht := h.slot _ (List.mem_singleton.2 rfl) t (List.mem_singleton.2 rfl)
  refine h.spends ?_ ?_ (Or.inl ?_) fun id => ⟨?_, ?_, ?_, ?_⟩
  · simpa using ht.covers.containsCore h.onMesh
  · exact fun id => declared_of_single (by simp [wire]) consumer 0
  · exact Nat.lt_of_le_of_lt (Nat.mul_le_mul_right 1 hfew) (by decide)
  · have hsize : 2 < UInt64.size := by decide
    simp only [wire, List.length_map]
    omega
  · exact (by decide : 1 < UInt64.size)
  · simp [wire, UInt64.size]
  · exact (by decide : 1 < UInt64.size)

/-! ## Costs per core -/

/-- So many L1 buffers, queues and pipes for each core. -/
def perCore (l1 queues pipes : Nat) (cores : List Core) : Budget :=
  (l1 • (cores : Multiset Core), queues * cores.length, pipes * cores.length)

/-- One budget is within another if each of its parts is. -/
theorem budget_le {a b : Budget} (hl1 : a.1 ≤ b.1) (hqueues : a.2.1 ≤ b.2.1)
    (hpipes : a.2.2 ≤ b.2.2) : a ≤ b := ⟨hl1, hqueues, hpipes⟩

/-- Cores that are joined cost the sum of what they cost apart. -/
theorem perCore_append (l1 queues pipes : Nat) (cores cores' : List Core) :
    perCore l1 queues pipes (cores ++ cores') =
      perCore l1 queues pipes cores + perCore l1 queues pipes cores' := by
  simp only [perCore, Prod.mk_add_mk, ← nsmul_add, List.length_append, Nat.mul_add,
    Multiset.coe_add]

/-- Costs per core are added part by part. -/
theorem perCore_add (l1 l1' queues queues' pipes pipes' : Nat) (cores : List Core) :
    perCore l1 queues pipes cores + perCore l1' queues' pipes' cores =
      perCore (l1 + l1') (queues + queues') (pipes + pipes') cores := by
  simp only [perCore, Prod.mk_add_mk, ← add_nsmul, ← Nat.add_mul]

/-- The cost of cores is the sum of what each costs. -/
theorem sum_perCore (l1 queues pipes : Nat) (cores : List Core) :
    (cores.map fun core => perCore l1 queues pipes [core]).sum = perCore l1 queues pipes cores := by
  induction cores with
  | nil => simp [perCore, Prod.ext_iff]
  | cons core cores ih =>
    rw [List.map_cons, List.sum_cons, ih, ← perCore_append]
    rfl

/-- A step for each slot of a list costs as much for each of their cores. -/
theorem spends_forM_slots {f : Slot → Build Unit} {l1 queues pipes : Nat}
    (h : ∀ s ∈ slots, ∀ e', e.Fills e' →
      (f s).Spends (perCore l1 queues pipes [s.core]) e' fun _ _ => True) :
    Spends (slots.forM f) (perCore l1 queues pipes (slots.map (·.core))) e fun _ _ => True := by
  rw [← sum_perCore, List.map_map]
  exact Spends.forM h

/-- A step for each slot of an op. -/
theorem SlotsOf.spends_forM (hs : SlotsOf slots e op) {f : Slot → Build Unit}
    {l1 queues pipes : Nat}
    (h : ∀ {s : Slot} {e' : Epoch}, s.Of e' op → op.OnMesh e'.device → 0 < e'.device.gridX.toNat →
      0 < e'.device.gridY.toNat →
      (f s).Spends (perCore l1 queues pipes [s.core]) e' fun _ _ => True) :
    Spends (slots.forM f) (perCore l1 queues pipes (opCores op)) e fun _ _ => True := by
  rw [← hs.cores]
  refine spends_forM_slots fun s hmem e' hfills => ?_
  have hs := hs.under hfills.toUnder
  exact h (hs.slot s hmem) hs.onMesh hs.grid.1 hs.grid.2

/-! ## Steps -/

section

variable (hs : s.Of e op) (hop : op.OnMesh e.device) (hx : 0 < e.device.gridX.toNat)
  (hy : 0 < e.device.gridY.toNat)

include hs hop in
/-- The core of a slot stays on the mesh. -/
theorem Slot.Of.containsCore {e' : Epoch} (h : e.Fills e') :
    e'.device.containsCore s.core = true := h.device ▸ hs.covers.containsCore hop

include hs hop hx hy

/-- The second input is fed from a queue, through an L1 buffer at most. -/
theorem spends_feedSecond :
    (feedSecond s).Spends (perCore 1 1 2 [s.core]) e fun _ _ => True := by
  have hrest (q : BufferId) (staged : Bool) {e' : Epoch} (h : e.Fills e')
      (hq : ∃ x, e'.buffers.get? q = some x ∧ x.kind = .queue) :
      Spends (if staged then do
          let inter ← l1Buffer .prologInter s.core none
          unicast q inter s.core
          unicast inter s.second s.core
        else unicast q s.second s.core) (perCore 1 0 2 [s.core]) e' fun _ _ => True := by
    obtain ⟨x, hx, hqueue⟩ := hq
    refine .ite (fun _ => ?_) fun _ => ?_
    · refine .seq (0, 0, 2) (spends_l1Buffer _ (hs.containsCore hop h) (by simp) (by simp))
        (by simp [l1Cost, perCore]) fun inter e₁ h₁ hstage => ?_
      obtain ⟨y, hy, hinter, _⟩ := hstage
      refine .seq (0, 0, 1) (spends_unicast (h₁.buffer hx) hy (hs.containsCore hop (h.trans h₁)) ?_)
        (by simp [pipeCost]) fun _ e₂ h₂ _ => ?_
      · exact fun _ _ => .intoStage (Or.inl (Or.inl hqueue)) (Or.inr (Or.inr hinter))
      · have h' := (h.trans h₁).trans h₂
        obtain ⟨z, hz, _, hfeeds⟩ := (hs.under h'.toUnder).second
        exact spends_feed (h₂.buffer hy) (Or.inr (Or.inr hinter)) hz hfeeds (hs.containsCore hop h')
    · obtain ⟨z, hz, _, hfeeds⟩ := (hs.under h.toUnder).second
      refine (spends_feed hx (Or.inl hqueue) hz hfeeds (hs.containsCore hop h)).of_le ?_
      simp [pipeCost, perCore]
  refine .seq_zero (.draw (coin_always _)) fun prolog e₁ h₁ _ => ?_
  refine .seq (perCore 1 0 2 [s.core])
    (spends_dramQueue (h₁.device ▸ hx) (h₁.device ▸ hy) 0 prolog) (by simp [queueCost, perCore])
    fun q e₂ h₂ hq => ?_
  have h' := h₁.trans h₂
  refine .ite (fun _ => ?_) fun _ => ?_
  · refine .seq_zero (.draw (coin_always _)) fun staged e₃ h₃ _ => ?_
    exact hrest q staged (h'.trans h₃) (hq.imp fun _ hx => ⟨h₃.buffer hx.1, hx.2⟩)
  · exact .seq_zero (.pure (Q := fun _ e' => e' = e₂) rfl)
      fun staged e₃ _ he => he ▸ hrest q staged h' hq

/-- The first input of a slot is fed from one queue over one pipe. -/
theorem spends_feedFirst :
    (feedFirst s).Spends (perCore 0 1 1 [s.core]) e fun _ _ => True := by
  refine .seq (0, 0, 1) (spends_dramQueue hx hy 0 false) (by simp [queueCost, perCore])
    fun q e₁ h₁ hq => ?_
  obtain ⟨x, hx, hqueue⟩ := hq
  obtain ⟨z, hz, _, hfeeds⟩ := (hs.under h₁.toUnder).first
  exact spends_feed hx (Or.inl hqueue) hz hfeeds (hs.containsCore hop h₁)

/-- The output of a slot is drained into one queue over one pipe. -/
theorem spends_drain :
    (drain s).Spends (perCore 0 1 1 [s.core]) e fun _ _ => True := by
  refine .seq (0, 0, 1) (spends_dramQueue hx hy 0 false) (by simp [queueCost, perCore])
    fun q e₁ h₁ hq => ?_
  obtain ⟨x, hx, hqueue⟩ := hq
  exact spends_output (hs.under h₁.toUnder) (h₁.device ▸ hop) hx (Or.inl hqueue)

end

/-! ## From one op to the next -/

section

variable (hp : SlotsOf sources e producer) (hc : SlotsOf slots e consumer)
  (hchip : producer.chip = consumer.chip) (hcolumns : producer.shared consumer .x = 0)

include hp hc hchip hcolumns

/-- Slots of two ops in different columns can be wired. -/
theorem SlotsOf.wired {e' : Epoch} (h : e.Fills e') {srcs : List Slot} {steps : List (List Slot)}
    (hsrcs : srcs ≠ []) (hsources : ∀ s ∈ srcs, s ∈ sources) (hsteps : steps ≠ [])
    (hbusy : ∀ step ∈ steps, step ≠ []) (hslots : ∀ step ∈ steps, ∀ s ∈ step, s ∈ slots) :
    Wired e' producer consumer srcs steps where
  sources_ne := hsrcs
  source := fun s hs => ((hp.under h.toUnder).slot s (hsources s hs))
  steps_ne := hsteps
  busy := hbusy
  slot := fun step hstep s hs => (hc.under h.toUnder).slot s (hslots step hstep s hs)
  onMesh := (hc.under h.toUnder).onMesh
  chip := hchip
  columns := hcolumns

/-- A multicast into a line of the consumer that declares it. -/
theorem spends_connectLine (follows : Bool) {a : Axis} {n : UInt32}
    (hn : n.toNat ∈ consumer.cells a)
    (hdeclared : (consumer.broadcast 0).row = true ∨ (consumer.broadcast 0).col = true) :
    (connectLine follows a sources slots n).Spends pipeCost e fun _ _ => True := by
  let members := slots.filter (·.core.coord.along a == n)
  have hmembers : members ≠ [] := by
    obtain ⟨s, hs, hline⟩ := hc.exists_on hn
    have hmem : s ∈ members := by
      rw [List.mem_filter, beq_iff_eq]
      exact ⟨hs, UInt32.toNat_inj.1 hline⟩
    exact List.ne_nil_of_mem hmem
  have hsub : ∀ s ∈ members, s ∈ slots := fun s hs => (List.mem_filter.1 hs).1
  obtain ⟨t, ht, hfirst⟩ := exists_element (List.length_pos_iff.2 hmembers)
  have hrest (src : Slot) (hsrc : src ∈ sources) {e' : Epoch} (h : e.Fills e') :
      Spends (do pipe [src.output] [members.map (·.first)] [(← element members 0).core])
        pipeCost e' fun _ _ => True := by
    refine .lift_bind hfirst ?_
    have hwired : Wired e' producer consumer [src] [members] :=
      hp.wired hc hchip hcolumns h (List.cons_ne_nil _ _) (by simpa using hsrc)
        (List.cons_ne_nil _ _) (by simpa using hmembers) (by simpa using hsub)
    refine hwired.spends (fun c hmem => ?_) (fun id => ⟨fun _ => hdeclared, ?_⟩)
      (Or.inl (show 1 * 1 < UInt32.size by decide)) fun id => ⟨?_, ?_, ?_, ?_⟩
    · rw [List.mem_singleton.1 hmem]
      exact (hwired.slot members (List.mem_singleton.2 rfl) t ht).covers.containsCore hwired.onMesh
    · intro out hout
      rw [List.mem_singleton.1 hout]
      rfl
    · exact (by decide : 1 < UInt64.size)
    · exact (by decide : 1 < UInt64.size)
    · intro step hstep
      rw [List.mem_singleton.1 hstep, List.length_map]
      exact Nat.lt_of_le_of_lt (List.length_filter_le ..) hc.length_lt
    · exact (by decide : 1 < UInt64.size)
  refine .ite (fun _ => ?_) fun _ => ?_
  · have hindex : (sources.findIdx? (·.core.y == n)).getD 0 < sources.length := by
      cases hfind : sources.findIdx? (·.core.y == n) with
      | some i => exact (List.findIdx?_eq_some_iff_getElem.1 hfind).1
      | none => exact List.length_pos_iff.2 hp.ne_nil
    obtain ⟨src, hsrc, hsource⟩ := exists_element hindex
    exact .lift_bind hsource (hrest src hsrc (.refl e))
  · exact .seq_zero (.choose hp.ne_nil) fun src e' h hsrc => hrest src hsrc h

/-- There are no more lines than cores. -/
theorem spends_connectLines {params : Params} {o : Planned} (ho : o.Places params consumer)
    (hdeclared : o.broadcast.row = true ∨ o.broadcast.col = true) :
    (connectLines o consumer sources slots).Spends (perCore 1 0 2 (slots.map (·.core))) e
      fun _ _ => True := by
  have hbroadcast : (consumer.broadcast 0).row = true ∨ (consumer.broadcast 0).col = true := by
    simpa [Op.broadcast, ho.inputs] using hdeclared
  have hlines (a : Axis) : Spends ((opLines consumer a).forM
      (connectLine o.follows a sources slots)) (perCore 1 0 2 (slots.map (·.core))) e
      fun _ _ => True := by
    have hline : ∀ n ∈ opLines consumer a, ∀ e', e.Fills e' →
        (connectLine o.follows a sources slots n).Spends pipeCost e' fun _ _ => True :=
      fun n hn e' h => spends_connectLine (hp.under h.toUnder) (hc.under h.toUnder) hchip hcolumns
        o.follows ((mem_opLines hc.onMesh).1 hn) hbroadcast
    refine (Spends.forM hline).of_le ?_
    have hwide : (consumer.size a).toNat ≤ slots.length := by
      have hx := (hc.onMesh .x).1
      have hy := (hc.onMesh .y).1
      rw [hc.length]
      cases a with
      | x => exact Nat.le_mul_of_pos_left _ hy
      | y => exact Nat.le_mul_of_pos_right _ hx
    rw [List.map_const', List.sum_replicate, length_opLines]
    simp only [pipeCost, perCore, Prod.smul_mk, smul_zero, Prod.mk_le_mk, List.length_map,
      smul_eq_mul, Nat.mul_one]
    exact ⟨Multiset.zero_le _, Nat.zero_le _, by omega⟩
  exact .lift_bind (linesOf_eq hc.onMesh _) (hlines _)

/-- A core of the consumer is fed by one or two cores of the producer, through a relay at most. -/
theorem spends_connectCore (hs : s ∈ slots) :
    (connectCore sources s).Spends (perCore 1 0 2 [s.core]) e fun _ _ => True := by
  have hjoin (srcs : List Slot) {e' : Epoch} (h : e.Fills e') (hne : srcs ≠ [])
      (hfew : srcs.length ≤ 2) (hsrcs : ∀ t ∈ srcs, t ∈ sources) :
      (pipe (srcs.map (·.output)) [[s.first]] [s.core]).Spends (perCore 1 0 2 [s.core]) e'
        fun _ _ => True := by
    refine (spends_join (hp.wired hc hchip hcolumns h hne hsrcs (List.cons_ne_nil _ _) ?_ ?_)
      hfew).of_le ?_
    · simp
    · simpa using hs
    · simp [pipeCost, perCore]
  have hslot {e' : Epoch} (h : e.Fills e') : s.Of e' consumer := (hc.under h.toUnder).slot s hs
  have hpos := List.length_pos_iff.2 hp.ne_nil
  refine .seq_zero (.draw (below32_lt (by decide))) fun n e₁ h₁ _ => .ite (fun _ => ?_) fun _ =>
    .ite (fun _ => ?_) fun _ => ?_
  · refine .seq_zero (.draw (below64_lt hpos)) fun i e₂ h₂ hi => ?_
    obtain ⟨one, hone, hfirst⟩ := exists_element hi
    obtain ⟨two, htwo, hsecond⟩ :=
      exists_element (l := sources) (i := (i + 1) % sources.length) (Nat.mod_lt _ hpos)
    refine .lift_bind hfirst (.lift_bind hsecond ?_)
    exact hjoin [one, two] (h₁.trans h₂) (List.cons_ne_nil _ _) (Nat.le_refl _)
      (by simp [hone, htwo])
  · refine .seq_zero (.choose hp.ne_nil) fun src e₂ h₂ hsrc => ?_
    have h' := h₁.trans h₂
    refine .seq (0, 0, 2) (spends_l1Buffer _ ((hslot (.refl e)).containsCore hc.onMesh h') (by simp)
      (by simp)) (by simp [l1Cost, perCore]) fun relay e₃ h₃ hstage => ?_
    obtain ⟨x, hx, hrelay, _⟩ := hstage
    have h'' := h'.trans h₃
    obtain ⟨y, hy, _, hemits⟩ := ((hp.under h''.toUnder).slot src hsrc).output
    refine .seq (0, 0, 1) (spends_unicast hy hx ((hslot (.refl e)).containsCore hc.onMesh h'') ?_)
      (by simp [pipeCost]) fun _ e₄ h₄ _ => ?_
    · exact fun _ _ => .intoStage (Or.inr ⟨producer, hemits⟩) (Or.inr (Or.inl hrelay))
    · have hlast := h''.trans h₄
      obtain ⟨z, hz, _, hfeeds⟩ := (hslot hlast).first
      exact spends_feed (h₄.buffer hx) (Or.inr (Or.inl hrelay)) hz hfeeds
        ((hslot (.refl e)).containsCore hc.onMesh hlast)
  · refine .seq_zero (.choose hp.ne_nil) fun src e₂ h₂ hsrc => ?_
    exact hjoin [src] (h₁.trans h₂) (List.cons_ne_nil _ _) (by simp) (by simpa using hsrc)

omit hp hchip hcolumns in
/-- A scatter is checked slot by slot. -/
theorem checkedCore?_scatter (id : PipeId) (srcs : List Slot) (cores : List Core) {t : Nat}
    (hs : slots[t]? = some s) :
    e.checkedCore? (wire id srcs (slots.map ([·])) cores) t = some s.core := by
  obtain ⟨x, hx, hcore, _⟩ := (hc.slot s (List.mem_of_getElem? hs)).first
  have hcast : (wire id srcs (slots.map ([·])) cores).isMulticast = false := by
    simp [Pipe.isMulticast, wire]
  have hout : (wire id srcs (slots.map ([·])) cores).outputsAt t = [s.first] := by
    simp [Pipe.outputsAt, wire, hs]
  rw [Epoch.checkedCore?, hout, hcast, List.head?_cons, Option.bind_some, hx, Option.map_some,
    if_neg Bool.false_ne_true, hcore]

omit hchip hcolumns in
/-- A scatter over a consumer that is no lower than the producer. -/
theorem scatter_spreads (hheight : producer.height ≤ consumer.height)
    (hlength : slots.length ≤ UInt32.size) {src : Slot} (hsrc : src ∈ sources) (id : PipeId)
    (cores : List Core) : e.Spreads (wire id [src] (slots.map ([·])) cores) producer consumer where
  single := rfl
  timesteps := by simpa [wire, Pipe.timesteps] using hlength
  height := hheight
  leads := by
    refine ⟨fun i hi core hcore => ?_, fun t ht core hcore => ?_⟩
    · obtain rfl : i = 0 := Nat.lt_one_iff.1 hi
      obtain ⟨x, hx, hon, _⟩ := (hp.slot src hsrc).output
      obtain rfl : core = src.core := by
        simpa [Epoch.sourceCore?, wire, hx, hon, eq_comm] using hcore
      exact (hp.slot src hsrc).covers.2
    · have ht : t < slots.length := by simpa [wire, Pipe.timesteps] using ht
      rw [checkedCore?_scatter hc id [src] cores (List.getElem?_eq_getElem ht)] at hcore
      cases hcore
      exact (hc.slot _ (List.getElem_mem ht)).covers.2
  rows := by
    intro y hy
    obtain ⟨s, hs, hrow⟩ := hc.exists_on hy
    obtain ⟨t, ht⟩ := List.getElem?_of_mem hs
    refine ⟨t, ?_, s.core, checkedCore?_scatter hc id [src] cores ht, hrow⟩
    simpa [wire, Pipe.timesteps] using (List.getElem?_eq_some_iff.1 ht).1

/-- A core of the producer is scattered over the consumer. With too many timesteps to count, the
consumer has four rows, so no fewer than the producer. -/
theorem spends_scatter (hheight : producer.height.toNat ≤ 4) (hheight' : consumer.height.toNat ≤ 4)
    (hwidth : consumer.width.toNat ≤ 2 ^ 30) {src : Slot} (hsrc : src ∈ sources) :
    (pipe [src.output] (slots.map ([·.first])) (slots.map (·.core))).Spends pipeCost e
      fun _ _ => True := by
  have hwired : Wired e producer consumer [src] (slots.map ([·])) :=
    hp.wired hc hchip hcolumns (.refl e) (List.cons_ne_nil _ _) (by simpa using hsrc)
      (by simpa using hc.ne_nil) (by simp) (by simp)
  have hsingle (id : PipeId) :
      ∀ o ∈ (wire id [src] (slots.map ([·])) (slots.map (·.core))).outputs, o.length = 1 := by
    simp [wire]
  have houtputs : (slots.map ([·])).map (·.map (·.first)) = slots.map ([·.first]) := by
    rw [List.map_map]
    rfl
  rw [← houtputs]
  refine hwired.spends ?_ (fun id => declared_of_single (hsingle id) consumer 0) ?_ fun id =>
    ⟨?_, ?_, ?_, ?_⟩
  · intro c hmem
    obtain ⟨s, hs, rfl⟩ := List.mem_map.1 hmem
    exact (hc.slot s hs).covers.containsCore hc.onMesh
  · have hlength := hc.length
    have hsize : UInt32.size = 4 * 2 ^ 30 := rfl
    by_cases hrows : consumer.height.toNat ≤ 3
    · left
      have hcount := Nat.mul_le_mul hrows hwidth
      simp only [List.length_singleton, List.length_map, Nat.one_mul]
      omega
    · right
      intro id
      have hcount := Nat.mul_le_mul hheight' hwidth
      exact scatter_spreads hp hc (UInt32.le_iff_toNat_le.2 (by omega)) (by omega) hsrc id _
  · exact (by decide : 1 < UInt64.size)
  · simpa [wire] using hc.length_lt
  · intro step hstep
    rw [hsingle id step hstep]
    decide
  · simpa [wire] using hc.length_lt

/-- The first input of an op is fed by the op before it. -/
theorem spends_connect {params : Params} {o : Planned} (ho : o.Places params consumer)
    (hheight : producer.height.toNat ≤ 4) (hwidth : consumer.width.toNat ≤ 2 ^ 30) :
    (connect o consumer sources slots).Spends (perCore 1 0 2 (slots.map (·.core))) e
      fun _ _ => True := by
  refine .ite (fun hlines => ?_) fun _ => ?_
  · exact spends_connectLines hp hc hchip hcolumns ho (Bool.or_eq_true_iff.1 hlines)
  · have hrest (scatter : Bool) {e' : Epoch} (h : e.Fills e') :
        Spends (if scatter then do
            let src ← choose sources
            pipe [src.output] (slots.map ([·.first])) (slots.map (·.core))
          else slots.forM (connectCore sources)) (perCore 1 0 2 (slots.map (·.core))) e'
          fun _ _ => True := by
      have hp := hp.under h.toUnder
      have hc := hc.under h.toUnder
      refine .ite (fun _ => ?_) fun _ => spends_forM_slots fun s hs e'' h' => ?_
      · refine .seq_zero (.choose hp.ne_nil) fun src e'' h' hsrc => ?_
        refine (spends_scatter (hp.under h'.toUnder) (hc.under h'.toUnder) hchip hcolumns hheight
          ho.low hwidth hsrc).of_le ?_
        have hpos := List.length_pos_iff.2 hc.ne_nil
        simp only [pipeCost, perCore, Prod.mk_le_mk, List.length_map]
        exact ⟨Multiset.zero_le _, Nat.zero_le _, by omega⟩
      · exact spends_connectCore (hp.under h'.toUnder) (hc.under h'.toUnder) hchip hcolumns hs
    refine .ite (fun _ => ?_) fun _ => ?_
    · exact .seq_zero (.draw (coin_always _)) fun scatter e' h _ => hrest scatter h
    · exact .seq_zero (.pure (Q := fun _ _ => True) trivial) fun scatter e' h _ => hrest scatter h

end

/-! ## To the next chip -/

/-- The ethernet cores of both chips that the last op is linked over. -/
def linkCores : List Core := [⟨0, 0, 0⟩, ⟨1, 0, 0⟩]

/-- What a link to the next chip takes at most. -/
def linkCost : Budget := ((linkCores : Multiset Core), 2, 3)

section

variable (hs : s.Of e op) (hop : op.OnMesh e.device) (hx : 0 < e.device.gridX.toNat)
  (hy : 0 < e.device.gridY.toNat)

include hs hop hx hy

/-- A link over ethernet takes a relay on each of both cores. -/
theorem spends_linkOverEthernet (heth : e.device.ethernet[0]? = some ⟨0, 0⟩) :
    (linkOverEthernet s).Spends linkCost e fun _ _ => True := by
  have hlink (chip : UInt32) : e.device.containsCore ⟨chip, 0, 0⟩ = true := by
    simp only [Device.containsCore, Bool.and_eq_true, decide_eq_true_eq, UInt32.lt_iff_toNat_lt]
    exact ⟨hx, hy⟩
  refine .get_bind fun b hb => .lift_bind (hb ▸ element_eq_ok.2 heth) ?_
  refine .seq ({⟨1, 0, 0⟩}, 2, 3) (spends_l1Buffer _ (hlink 0) (by simp) (by simp)) ?_
    fun tx e₁ h₁ hnear => ?_
  · exact ⟨le_rfl, by simp [l1Cost, linkCost], by simp [l1Cost, linkCost]⟩
  obtain ⟨a, ha, htx, _⟩ := hnear
  refine .seq (0, 2, 3) (spends_l1Buffer _ (h₁.device ▸ hlink 1) (by simp) (by simp))
    (by simp [l1Cost]) fun rx e₂ h₂ hfar => ?_
  obtain ⟨b, hb, hrx, _⟩ := hfar
  have h₂' := h₁.trans h₂
  refine .seq (0, 2, 2) (spends_output (hs.under h₂'.toUnder) (h₂'.device ▸ hop) (h₂.buffer ha)
    (Or.inr (Or.inl htx))) (by simp [pipeCost]) fun _ e₃ h₃ _ => ?_
  have h₃' := h₂'.trans h₃
  refine .seq (0, 2, 1) (spends_unicast ((h₂.trans h₃).buffer ha) (h₃.buffer hb)
    (h₃'.device ▸ hlink 0) ?_) (by simp [pipeCost]) fun _ e₄ h₄ _ => ?_
  · exact fun _ _ => .intoStage (Or.inl (Or.inr (Or.inl htx))) (Or.inr (Or.inl hrx))
  have h₄' := h₃'.trans h₄
  refine .seq (0, 0, 1) (spends_dramQueue (h₄'.device ▸ hx) (h₄'.device ▸ hy) 1 false)
    (by simp [queueCost]) fun q e₅ h₅ hq => ?_
  obtain ⟨c, hc, hqueue⟩ := hq
  refine spends_unicast (((h₃.trans h₄).trans h₅).buffer hb) hc ((h₄'.trans h₅).device ▸ hlink 1) ?_
  exact fun _ _ => .intoStage (Or.inl (Or.inr (Or.inl hrx))) (Or.inl hqueue)

/-- A link through host memory takes a queue there. -/
theorem spends_linkOverHost : (linkOverHost s).Spends linkCost e fun _ _ => True := by
  refine .seq (0, 1, 2) (spends_queue .host false (Or.inl rfl)) ?_ fun q e₁ h₁ hq => ?_
  · exact budget_le (by simp [queueCost]) (by simp [queueCost, linkCost])
      (by simp [queueCost, linkCost])
  obtain ⟨a, ha, hqueue⟩ := hq
  refine .seq (0, 1, 1) (spends_output (hs.under h₁.toUnder) (h₁.device ▸ hop) ha (Or.inl hqueue))
    (by simp [pipeCost]) fun _ e₂ h₂ _ => ?_
  have h₂' := h₁.trans h₂
  refine .seq (0, 0, 1) (spends_dramQueue (h₂'.device ▸ hx) (h₂'.device ▸ hy) 1 false)
    (by simp [queueCost]) fun q e₃ h₃ hq => ?_
  obtain ⟨b, hb, hqueue⟩ := hq
  have h₃' := h₂'.trans h₃
  exact spends_output (hs.under h₃'.toUnder) (h₃'.device ▸ hop) hb (Or.inl hqueue)

end

end Synthesis

end TorusRouting
