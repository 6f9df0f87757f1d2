import Mathlib.Algebra.BigOperators.Intervals
import TorusRouting.Proofs.Mesh.Sweep
import TorusRouting.Proofs.Routing.Failures

/-!
# What a best-effort route counts

Between ops of one chip, a pipe has one path for each timestep and input. When the buffers lie in
the rectangles of their ops, the paths that leave the box of the route are those that would have to
run against its network along the axis on which the ops overlap; their number is what a best-effort
route reports.
-/

namespace TorusRouting

namespace Epoch

variable {e : Epoch} {config : Config} {oracle : Oracle} {p : Pipe} {c : PipeClass}
  {producer consumer : Op} {box : Box} {n : Network} {a : Axis}

/-! ## Paths of a pipe -/

/-- Core of an input of a pipe, by number. -/
def sourceCore? (e : Epoch) (p : Pipe) (i : Nat) : Option Core :=
  (p.inputs[i]?).bind fun id => (e.buffers.get? id).map (·.core)

/-- Core that a timestep of a pipe is checked at: the one that implements it if the pipe is a
multicast and has one, and that of its first output otherwise. -/
def checkedCore? (e : Epoch) (p : Pipe) (t : Nat) : Option Core :=
  ((p.outputsAt t).head?.bind e.buffers.get?).map fun out =>
    if p.isMulticast then (p.cores[t]?).getD out.core else out.core

/-- The timesteps and inputs of a pipe whose path, from the source to the checked core, is
marked. -/
def paths (e : Epoch) (p : Pipe) (marked : Coord → Coord → Bool) : Finset (Nat × Nat) :=
  {q ∈ Finset.range p.timesteps ×ˢ Finset.range p.inputs.length |
    ∃ s ∈ e.sourceCore? p q.2, ∃ d ∈ e.checkedCore? p q.1, marked s.coord d.coord}

/-- Paths that would have to run against the network along an axis. -/
def pathsBehind (e : Epoch) (p : Pipe) (n : Network) (a : Axis) : Finset (Nat × Nat) :=
  e.paths p fun s d => n.Behind (s.along a) (d.along a)

/-- Paths are counted timestep by timestep. -/
theorem card_paths (e : Epoch) (p : Pipe) (marked : Coord → Coord → Bool) :
    (e.paths p marked).card = ∑ t ∈ Finset.range p.timesteps, ∑ i ∈ Finset.range p.inputs.length,
      if ∃ s ∈ e.sourceCore? p i, ∃ d ∈ e.checkedCore? p t, marked s.coord d.coord then 1
      else 0 := by
  rw [paths, Finset.card_filter, Finset.sum_product]

/-- The inputs from which a path leaves the box are counted. -/
theorem unfitInputs_eq_sum {dst : Core} {ids : List BufferId}
    (h : ∀ id ∈ ids, ∃ b, e.buffers.get? id = some b) :
    e.unfitInputs p box n dst.coord ids = .ok (∑ i ∈ Finset.range ids.length,
      if ∃ s ∈ (ids[i]?).bind fun id => (e.buffers.get? id).map (·.core),
        !box.fits n s.coord dst.coord then 1 else 0) := by
  induction ids with
  | nil => rfl
  | cons id ids ih =>
    rw [List.forall_mem_cons] at h
    obtain ⟨b, hb⟩ := h.1
    rw [unfitInputs, pipeBuffer_eq_ok.2 hb, ih h.2, List.length_cons, Finset.sum_range_succ']
    simp only [bind, Except.bind, pure, Except.pure, Except.ok.injEq, List.getElem?_cons_succ,
      List.getElem?_cons_zero, Option.bind_some, hb, Option.map_some, Option.mem_some,
      exists_eq_left']
    cases box.fits n b.core.coord dst.coord <;> simp

/-- The paths that leave the box are counted, from any timestep on. -/
theorem unfitPaths_drop (h : p.Connected e) (k : Nat) :
    e.unfitPaths p p.isMulticast box n (p.outputs.drop k) (p.cores.drop k) =
      .ok (∑ t ∈ Finset.Ico k p.timesteps, ∑ i ∈ Finset.range p.inputs.length,
        if ∃ s ∈ e.sourceCore? p i, ∃ d ∈ e.checkedCore? p t, !box.fits n s.coord d.coord
        then 1 else 0) := by
  generalize hsteps : p.outputs.drop k = steps
  induction steps generalizing k with
  | nil =>
    have hdone : p.timesteps ≤ k := List.drop_eq_nil_iff.1 hsteps
    rw [Finset.Ico_eq_empty_of_le hdone]
    rfl
  | cons o steps ih =>
    have hlt : k < p.timesteps := by
      by_contra hge
      rw [List.drop_eq_nil_of_le (Nat.not_lt.1 hge)] at hsteps
      cases hsteps
    have hk : p.outputs[k]? = some o := by
      rw [← List.head?_drop, hsteps]
      rfl
    have ho : o ∈ p.outputs := List.mem_of_getElem? hk
    obtain ⟨first, rest, hfirst⟩ := List.exists_cons_of_ne_nil (h.busy o ho)
    obtain ⟨out, hout⟩ := h.output o ho first (hfirst ▸ List.mem_cons_self ..)
    have hchecked : e.checkedCore? p k =
        some (if p.isMulticast then (p.cores[k]?).getD out.core else out.core) := by
      rw [checkedCore?, Pipe.outputsAt, hk, Option.getD_some, hfirst, List.head?_cons,
        Option.bind_some, hout]
      rfl
    have htail : p.outputs.drop (k + 1) = steps := by
      rw [← List.tail_drop, hsteps]
      rfl
    rw [Finset.sum_eq_sum_Ico_succ_bot hlt, unfitPaths, hfirst, List.head?_cons]
    simp only [pipeBuffer_eq_ok.2 hout, List.head?_drop, List.tail_drop, bind, Except.bind,
      unfitInputs_eq_sum h.input, ih (k + 1) htail, hchecked, Option.mem_some, exists_eq_left']
    rfl

/-- The paths that leave the box, all together. -/
theorem unfitPaths_eq_card (h : p.Connected e) (box : Box) (n : Network) :
    e.unfitPaths p p.isMulticast box n p.outputs p.cores =
      .ok (e.paths p fun s d => !box.fits n s d).card := by
  rw [card_paths, Finset.range_eq_Ico]
  exact unfitPaths_drop h 0

/-! ## Fits of op-to-op routes -/

/-- Every path of a pipe leads from the rectangle of one op into that of another. -/
structure Leads (e : Epoch) (p : Pipe) (producer consumer : Op) : Prop where
  source : ∀ i < p.inputs.length, ∀ core ∈ e.sourceCore? p i, producer.Spans core.coord
  checked : ∀ t < p.timesteps, ∀ core ∈ e.checkedCore? p t, consumer.Spans core.coord

/-- Between the rectangles, the paths that leave the box are those against the network. -/
theorem paths_unfit_eq (h : e.Leads p producer consumer) (hbox : box.Sweeps n a producer consumer) :
    (e.paths p fun s d => !box.fits n s d) = e.pathsBehind p n a := by
  refine Finset.filter_congr fun q hq => ?_
  rw [Finset.mem_product, Finset.mem_range, Finset.mem_range] at hq
  have hpath {s d : Core} (hs : s ∈ e.sourceCore? p q.2) (hd : d ∈ e.checkedCore? p q.1) :
      (!box.fits n s.coord d.coord) = true ↔ n.Behind (s.coord.along a) (d.coord.along a) := by
    have hfits := hbox.fits_iff (h.source _ hq.2 _ hs) (h.checked _ hq.1 _ hd)
    rw [Bool.not_eq_true', ← Bool.not_eq_true, hfits, not_not]
  constructor
  · rintro ⟨s, hs, d, hd, hunfit⟩
    exact ⟨s, hs, d, hd, decide_eq_true ((hpath hs hd).1 hunfit)⟩
  · rintro ⟨s, hs, d, hd, hbehind⟩
    exact ⟨s, hs, d, hd, (hpath hs hd).2 (of_decide_eq_true hbehind)⟩

/-- The fit with a number of paths that leave the box. -/
def fitOf (unfit : Nat) : Fit := if unfit = 0 then .exact else .bestEffort (.ofNat unfit)

private theorem fitOf_eq_exact_iff {unfit : Nat} : fitOf unfit = .exact ↔ unfit = 0 := by
  unfold fitOf
  split <;> simp_all

private theorem fitOf_eq_bestEffort_iff {unfit : Nat} (h : unfit < UInt32.size) {k : UInt32}
    (hk : 0 < k) :
    fitOf unfit = .bestEffort k ↔ k.toNat = unfit := by
  unfold fitOf
  split
  · rename_i hzero
    rw [UInt32.lt_iff_toNat_lt, UInt32.toNat_zero] at hk
    simp only [reduceCtorEq, false_iff]
    omega
  · rw [Fit.bestEffort.injEq, ← UInt32.toNat_inj, UInt32.toNat_ofNat_of_lt' h, eq_comm]

/-- In a swept box the paths against the network are too many to count, or decide the fit. -/
theorem rate_swept (hp : p.Connected e) (hc : c.multicast = p.isMulticast)
    (h : e.Leads p producer consumer) (hbox : box.Sweeps n a producer consumer) :
    e.rate p c (n, some box) =
      if (e.pathsBehind p n a).card < UInt32.size then .ok (n, fitOf (e.pathsBehind p n a).card)
      else fault .overflow := by
  rw [rate, hc, unfitPaths_eq_card hp, paths_unfit_eq h hbox]
  change (word32 _ >>= _) = _
  split
  · rename_i hlt
    have hzero : UInt32.ofNat (e.pathsBehind p n a).card = 0 ↔ (e.pathsBehind p n a).card = 0 := by
      rw [← UInt32.toNat_inj, UInt32.toNat_ofNat_of_lt' hlt, UInt32.toNat_zero]
    rw [word32_of_lt hlt, fitOf]
    simp only [bind, Except.bind, pure, Except.pure, hzero]
  · rename_i hmany
    rw [word32, if_neg hmany]
    rfl

/-- Selection for a pipe between ops of one chip: the way between the rectangles is rated, and its
network becomes the incoming one. -/
theorem select_eq_rate {src dst : Buffer} (hends : e.Ends p src dst) (hc : c.BetweenOps)
    (h : e.Joins c producer consumer) (hchip : producer.chip = consumer.chip) (config : Config) :
    e.select config p c =
      e.device.opRoute p.id producer consumer >>= e.rate p c >>= fun x =>
        .ok ⟨some ⟨x.1, .noc1If c.noc1, .unicast, .data c.multicast⟩, c.direct, x.2, false⟩ := by
  obtain ⟨firstIn, firstOut, hselect⟩ := select_eq hends config c
  rw [hselect, selectRoute_betweenOps hc, opToOp_eq h hchip]
  cases e.device.opRoute p.id producer consumer >>= e.rate p c <;> rfl

/-- A pipe from op to op in a valid, well-keyed epoch joins two ops. Suppose that these are on one
chip and share no core, that the inputs lie in the producer, and that every timestep is checked at a
core in the consumer. If the ops share no line along either axis, the route is exact. Otherwise the
box of the route holds both ops, every path fits across the axis of the shared lines, and the route
is best effort with as many paths as would have to run against its network along that axis; it is
exact if there are none. Only `2 ^ 32` such paths or more are not counted. -/
theorem best_effort_count (hk : e.WellKeyed) (hvalid : e.validate = .ok ())
    (hx : e.device.gridX.toNat ≤ 2 ^ 31) (hy : e.device.gridY.toNat ≤ 2 ^ 31)
    (hp : p ∈ e.pipes.values) (config : Config) (hc : e.classify oracle p = .ok c)
    (hops : c.BetweenOps) :
    ∃ producer consumer, e.Joins c producer consumer ∧
      (producer.chip = consumer.chip → (¬ ∃ core, producer.Covers core ∧ consumer.Covers core) →
        e.Leads p producer consumer →
        ∃ n, (∀ r, e.select config p c = .ok r → ∃ l, r.route = some l ∧ l.incoming = n) ∧
          (((∀ a, producer.shared consumer a = 0) ∧
              e.device.opRoute p.id producer consumer = .ok (n, none) ∧
              ∃ r, e.select config p c = .ok r ∧ r.fit = .exact) ∨
            ∃ a box, 0 < producer.shared consumer a ∧ producer.shared consumer a.other = 0 ∧
              e.device.opRoute p.id producer consumer = .ok (n, some box) ∧
              box.Sweeps n a producer consumer ∧
              (∀ k : UInt32, 0 < k → ((∃ r, e.select config p c = .ok r ∧ r.fit = .bestEffort k) ↔
                k.toNat = (e.pathsBehind p n a).card)) ∧
              ((∃ r, e.select config p c = .ok r ∧ r.fit = .exact) ↔ e.pathsBehind p n a = ∅) ∧
              (e.select config p c = fault .overflow ↔ 2 ^ 32 ≤ (e.pathsBehind p n a).card))) := by
  obtain ⟨src, dst, hends, _, hcls⟩ := classifies_of_classify hc
  obtain ⟨producer, consumer, hjoins⟩ := hcls.joins hk hops
  obtain ⟨_, _, _, hdelivers⟩ := hcls.delivers hops.ethernet hops.dest
  have hconnected := connected_of_validate hvalid p hp
  have hmesh := onMesh_of_validate hvalid
  have hproducer := hmesh producer (Table.mem_values_of_get? hjoins.sender)
  have hconsumer := hmesh consumer (Table.mem_values_of_get? hjoins.receiver)
  refine ⟨producer, consumer, hjoins, ?_⟩
  intro hchip hapart hleads
  have hd : e.device.gridX.toNat + e.device.gridY.toNat ≤ UInt32.size := by
    simp only [UInt32.size]
    omega
  rw [Op.exists_covers_iff hproducer hchip] at hapart
  have hselect := select_eq_rate hends hops hjoins hchip config
  obtain ⟨n, ⟨hway, hshared⟩ | ⟨a, box, hway, hpos, hother, hbox⟩⟩ :=
    Device.opRoute_cases hproducer hconsumer hd p.id hapart
  · rw [hway] at hselect
    refine ⟨n, ?_, Or.inl ⟨hshared, hway, _, hselect, rfl⟩⟩
    intro r hr
    cases hselect.symm.trans hr
    exact ⟨_, rfl, rfl⟩
  · simp only [hway, bind, Except.bind, rate_swept hconnected hdelivers.multicast hleads hbox]
      at hselect
    by_cases hlt : (e.pathsBehind p n a).card < UInt32.size
    · rw [if_pos hlt] at hselect
      rw [hselect]
      refine ⟨n, ?_, Or.inr ⟨a, box, hpos, hother, hway, hbox, ?_, ?_, ?_⟩⟩
      · intro r hr
        cases hr
        exact ⟨_, rfl, rfl⟩
      · intro k hk
        rw [← fitOf_eq_bestEffort_iff hlt hk]
        simp only [Except.ok.injEq, exists_eq_left']
      · rw [← Finset.card_eq_zero, ← fitOf_eq_exact_iff]
        simp only [Except.ok.injEq, exists_eq_left']
      · simp only [fault, reduceCtorEq, false_iff]
        exact Nat.not_le.2 hlt
    · rw [if_neg hlt] at hselect
      rw [hselect]
      simp only [UInt32.size] at hlt
      refine ⟨n, nofun, Or.inr ⟨a, box, hpos, hother, hway, hbox, ?_, ?_, ?_⟩⟩
      · intro k _
        have hk : k.toNat < 2 ^ 32 := k.toNat_lt
        simp only [fault, reduceCtorEq, false_and, exists_false, false_iff]
        omega
      · rw [← Finset.card_eq_zero]
        simp only [fault, reduceCtorEq, false_and, exists_false, false_iff]
        omega
      · exact iff_of_true rfl (Nat.not_lt.1 hlt)

/-- A gather whose box wraps around the right edge. Two of its inputs lie below the first row that
it delivers to. -/
def wrappingGather : Epoch where
  index := 0
  device := { gridX := 8, gridY := 10, ethernet := [], l1Bytes := 1024, reservedBytes := 0 }
  ops := .ofList [
    ("prod", ⟨"prod", 0, 5, 2, 2, 3, false, false, []⟩),
    ("cons", ⟨"cons", 0, 0, 3, 2, 3, false, false, []⟩)]
  buffers := .ofList [
    (⟨1⟩, ⟨⟨1⟩, .opOutput, ⟨0, 5, 2⟩, none, some (.producer "prod"), 16, 1, 8, 2⟩),
    (⟨2⟩, ⟨⟨2⟩, .opOutput, ⟨0, 5, 4⟩, none, some (.producer "prod"), 16, 1, 8, 2⟩),
    (⟨3⟩, ⟨⟨3⟩, .opOutput, ⟨0, 6, 4⟩, none, some (.producer "prod"), 16, 1, 8, 2⟩),
    (⟨4⟩, ⟨⟨4⟩, .opInput, ⟨0, 0, 3⟩, none, some (.consumer "cons" 0), 16, 1, 8, 2⟩),
    (⟨5⟩, ⟨⟨5⟩, .opInput, ⟨0, 1, 5⟩, none, some (.consumer "cons" 0), 16, 1, 8, 2⟩)]
  pipes := .ofList [(⟨10⟩, ⟨⟨10⟩, [⟨1⟩, ⟨2⟩, ⟨3⟩], [[⟨4⟩], [⟨5⟩]], [], none⟩)]

/-- Of a gather over the seam of the ring two paths do not fit. -/
theorem best_effort_count_wrappingGather :
    wrappingGather.WellKeyed ∧ wrappingGather.validate = .ok () ∧
    ∃ p c r, p ∈ wrappingGather.pipes.values ∧ wrappingGather.classify .adjacent p = .ok c ∧
      c.BetweenOps ∧ wrappingGather.select {} p c = .ok r ∧ r.fit = .bestEffort 2 := by
  let p : Pipe := ⟨⟨10⟩, [⟨1⟩, ⟨2⟩, ⟨3⟩], [[⟨4⟩], [⟨5⟩]], [], none⟩
  let c : PipeClass :=
    { sourceOp := some "prod", destOp := some "cons", loopback := true, timesteps := 2 }
  have hk : wrappingGather.WellKeyed := by decide
  have hvalid : wrappingGather.validate = .ok () := by decide
  have hp : p ∈ wrappingGather.pipes.values := by decide
  have hc : wrappingGather.classify .adjacent p = .ok c := by decide
  have hops : c.BetweenOps := ⟨rfl, rfl, rfl, rfl⟩
  obtain ⟨producer, consumer, hjoins, hcount⟩ :=
    best_effort_count hk hvalid (by decide) (by decide) hp {} hc hops
  have hends : wrappingGather.Joins c ⟨"prod", 0, 5, 2, 2, 3, false, false, []⟩
      ⟨"cons", 0, 0, 3, 2, 3, false, false, []⟩ := ⟨rfl, by decide, rfl, by decide⟩
  obtain ⟨rfl, rfl⟩ := hends.unique hjoins
  have hleads : wrappingGather.Leads p ⟨"prod", 0, 5, 2, 2, 3, false, false, []⟩
      ⟨"cons", 0, 0, 3, 2, 3, false, false, []⟩ := ⟨by decide, by decide⟩
  have hapart : ¬ ∃ core, Op.Covers ⟨"prod", 0, 5, 2, 2, 3, false, false, []⟩ core ∧
      Op.Covers ⟨"cons", 0, 0, 3, 2, 3, false, false, []⟩ core := by
    rintro ⟨core, hprod, hcons⟩
    have hpx := Op.mem_cells.1 (hprod.2 .x)
    have hcx := Op.mem_cells.1 (hcons.2 .x)
    exact absurd hcx.2 (Nat.not_lt.2 (Nat.le_trans (by decide) hpx.1))
  obtain ⟨n, _, ⟨hshared, _⟩ | ⟨a, box, hpos, _, hway, _, hfit, _⟩⟩ := hcount rfl hapart hleads
  · exact absurd (hshared .y) (by decide)
  · have hroute : wrappingGather.device.opRoute p.id ⟨"prod", 0, 5, 2, 2, 3, false, false, []⟩
        ⟨"cons", 0, 0, 3, 2, 3, false, false, []⟩ = .ok (.noc0, some ⟨⟨5, 1⟩, ⟨2, 5⟩⟩) := by decide
    cases hroute.symm.trans hway
    cases a with
    | x => exact absurd hpos (by decide)
    | y =>
      obtain ⟨r, hr, hbest⟩ := (hfit 2 (by decide)).2 (by decide)
      exact ⟨hk, hvalid, p, c, r, hp, hc, hops, hr, hbest⟩

end Epoch

end TorusRouting
