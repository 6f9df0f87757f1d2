import TorusRouting.Proofs.Synthesis.Wiring

/-!
# Chains of ops can be built

The ops are added from left to right, each with three buffers on every core. Then every op is fed by
the one before it, and the last one is drained. All of this together takes no more than five L1
buffers for each core of an op, and one more on each ethernet core of a link; no core has two ops,
so the construction always comes to its end.
-/

namespace TorusRouting.Synthesis

open Randomness Build

variable {e : Epoch} {op producer : Op} {b : Builder} {rest : Budget} {p : Params}
  {ops : List (Planned × Op)} {c : Link} {chain : List Link} {sources : List Slot}

/-! ## Adding ops -/

/-- The op has been added. -/
def Builder.withOp (b : Builder) (op : Op) : Builder :=
  { b with epoch := { b.epoch with ops := b.epoch.ops.insert op.name op } }

section

variable (hname : op.name ∉ b.epoch.ops.keys)

include hname

private theorem Builder.under_withOp : b.epoch.Under (b.withOp op).epoch :=
  ⟨rfl, fun hother => Table.get?_insert_of_notMem hname hother op, id⟩

/-- A new op takes nothing of the budget. -/
theorem Builder.Sound.withOp (hb : b.Sound rest) : (b.withOp op).Sound rest :=
  { hb with
    wellKeyed := ⟨hb.wellKeyed.ops.insert op, hb.wellKeyed.buffers, hb.wellKeyed.pipes⟩
    pipes := fun q hq => ⟨(under_withOp hname).carries (hb.pipes q hq).1, (hb.pipes q hq).2⟩ }

private theorem run_editOp : (edit (·.addOp op)).run.run b = (.ok (), b.withOp op) :=
  run_edit (Epoch.addOp_eq_ok.2 ⟨hname, rfl⟩)

end

/-- The three buffers of a core. -/
theorem spends_slot {core : Core} (hcovers : op.Covers core) (hop : op.OnMesh e.device)
    (hstored : e.ops.get? op.name = some op) (hname : op.name.utf8ByteSize < UInt64.size) :
    Spends (do
      let output ← l1Buffer .opOutput core (some (.producer op.name))
      let first ← l1Buffer .opInput core (some (.consumer op.name 0))
      let second ← l1Buffer .opInput core (some (.consumer op.name 1))
      return (⟨core, output, first, second⟩ : Slot))
      (perCore 3 0 0 [core]) e fun s e' => s.core = core ∧ s.Of e' op := by
  have hcore {e' : Epoch} (h : e.Fills e') : e'.device.containsCore core = true :=
    h.device ▸ hcovers.containsCore hop
  have howner {owner : Owner} (howner : owner.op = op.name) :
      ∀ o ∈ some owner, o.op.utf8ByteSize < UInt64.size := by
    rintro _ ⟨⟩
    exact howner ▸ hname
  have hinput {i : UInt64} (hi : i.toNat < 2) :
      ∀ name input, some (Owner.consumer op.name i) = some (.consumer name input) →
        input.toNat < 2 := by
    rintro name input ⟨⟩
    exact hi
  have hcost (n : Nat) : l1Cost core + perCore n 0 0 [core] ≤ perCore (n + 1) 0 0 [core] := by
    simp [l1Cost, perCore, succ_nsmul']
  refine .seq (perCore 2 0 0 [core])
    (spends_l1Buffer _ (hcore (.refl e)) (howner rfl) (by simp)) (hcost 2)
    fun output e₁ h₁ houtput => ?_
  obtain ⟨x, hx, _, hxcore, hxowner⟩ := houtput
  refine .seq (perCore 1 0 0 [core])
    (spends_l1Buffer _ (hcore h₁) (howner rfl) (hinput (by decide))) (hcost 1)
    fun first e₂ h₂ hfirst => ?_
  obtain ⟨y, hy, _, hycore, hyowner⟩ := hfirst
  have h₂' := h₁.trans h₂
  refine .seq 0 (spends_l1Buffer _ (hcore h₂') (howner rfl) (hinput (by decide)))
    (by simp [l1Cost, perCore]) fun second e₃ h₃ hsecond => ?_
  obtain ⟨z, hz, _, hzcore, hzowner⟩ := hsecond
  have hstored := (h₂'.trans h₃).op hstored
  refine .pure ⟨rfl, hcovers, ?_, ?_, ?_⟩
  · exact ⟨x, (h₂.trans h₃).buffer hx, hxcore, hxowner, hstored⟩
  · exact ⟨y, h₃.buffer hy, hycore, hyowner, hstored⟩
  · exact ⟨z, hz, hzcore, hzowner, hstored⟩

/-- An op is added with the slots of its cores. -/
theorem run_addOp (hb : b.Sound (perCore 3 0 0 (opCores op) + rest))
    (hnew : op.name ∉ b.epoch.ops.keys) (hop : op.OnMesh b.epoch.device)
    (hname : op.name.utf8ByteSize < UInt64.size) :
    ∃ slots b', (addOp op).run.run b = (.ok slots, b') ∧ b'.Sound rest ∧
      (b.withOp op).epoch.Fills b'.epoch ∧ SlotsOf slots b'.epoch op := by
  have hstored : (b.withOp op).epoch.ops.get? op.name = some op := by
    simp [Builder.withOp, Table.get?_insert]
  let R (core : Core) (s : Slot) (e : Epoch) : Prop := s.core = core ∧ s.Of e op
  have hmapM := Spends.mapM (R := R) (fun h hR => ⟨hR.1, hR.2.under h.toUnder⟩)
    fun core hcore e' (h : (b.withOp op).epoch.Fills e') =>
      spends_slot ((mem_opCores hop).1 hcore) (h.device ▸ hop) (h.op hstored) hname
  rw [sum_perCore] at hmapM
  obtain ⟨slots, b', hrun, hb', hfills, hslots⟩ := hmapM rest _ rfl (hb.withOp hnew)
  refine ⟨slots, b', ?_, hb', hfills, ?_, ?_, ?_⟩
  · rw [addOp, run_bind_ok (run_editOp hnew), run_bind_ok (run_lift (coresOf_eq hop) _)]
    exact hrun
  · rw [hfills.device]
    exact hop
  · have hcores := map_eq_map_of_forall₂ (f := id) (hslots.imp fun _ _ h => h.1.symm)
    rw [← hcores, List.map_id]
  · intro s hs
    obtain ⟨_, _, h⟩ := exists_left_of_forall₂ hslots hs
    exact h.2

/-- The cores of all ops. -/
def chainCores (ops : List (Planned × Op)) : List Core := ops.flatMap fun x => opCores x.2

private theorem chainCores_cons (x : Planned × Op) (ops : List (Planned × Op)) :
    chainCores (x :: ops) = opCores x.2 ++ chainCores ops := List.flatMap_cons

/-- The slots of every op of the chain are in place. -/
def Stands (e : Epoch) (chain : List Link) : Prop := ∀ c ∈ chain, SlotsOf c.2 e c.1.2

/-- Slots stay in place. -/
theorem Stands.under {e' : Epoch} (h : Stands e chain) (hunder : e.Under e') : Stands e' chain :=
  fun c hc => (h c hc).under hunder

/-- Ops with new names are added one after the other. -/
theorem run_addOps (hb : b.Sound (perCore 3 0 0 (chainCores ops) + rest))
    (hnew : ∀ x ∈ ops, x.2.name ∉ b.epoch.ops.keys)
    (hnames : ops.Pairwise fun x y => x.2.name ≠ y.2.name)
    (hops : ∀ x ∈ ops, x.2.OnMesh b.epoch.device ∧ x.2.name.utf8ByteSize < UInt64.size) :
    ∃ chain b', (ops.mapM fun x => (do return (x, ← addOp x.2) : Build Link)).run.run b =
        (.ok chain, b') ∧ chain.map (·.1) = ops ∧ Stands b'.epoch chain ∧
      b'.Sound rest ∧ b.epoch.Under b'.epoch ∧ b'.epoch.index = b.epoch.index ∧
      b'.epoch.ops.values = b.epoch.ops.values ++ ops.map (·.2) := by
  induction ops generalizing b with
  | nil =>
    refine ⟨[], b, rfl, rfl, List.forall_mem_nil _, hb.mono (le_add_of_nonneg_left zero_le),
      .refl _, rfl, ?_⟩
    rw [List.map_nil, List.append_nil]
  | cons x ops ih =>
    rw [List.forall_mem_cons] at hnew hops
    rw [List.pairwise_cons] at hnames
    rw [chainCores_cons, perCore_append, add_assoc] at hb
    obtain ⟨slots, b₁, hrun₁, hb₁, hfills, hslots⟩ := run_addOp hb hnew.1 hops.1.1 hops.1.2
    have hunder := (Builder.under_withOp hnew.1).trans hfills.toUnder
    have hkeys : b₁.epoch.ops.keys = b.epoch.ops.keys ++ [x.2.name] := by
      rw [hfills.ops]
      exact (Table.keys_insert ..).trans (if_neg hnew.1)
    have hnew₁ : ∀ y ∈ ops, y.2.name ∉ b₁.epoch.ops.keys := by
      intro y hy hmem
      rw [hkeys, List.mem_append, List.mem_singleton] at hmem
      exact hmem.elim (hnew.2 y hy) fun heq => hnames.1 y hy heq.symm
    obtain ⟨chain, b₂, hrun₂, hchain, hstands, hb₂, hunder₂, hindex, hvalues⟩ :=
      ih hb₁ hnew₁ hnames.2 (hunder.device.symm ▸ hops.2)
    refine ⟨(x, slots) :: chain, b₂, ?_, congrArg (x :: ·) hchain,
      List.forall_mem_cons.2 ⟨hslots.under hunder₂, hstands⟩, hb₂, hunder.trans hunder₂,
      hindex.trans hfills.index, ?_⟩
    · have hstep : (do return (x, ← addOp x.2) : Build Link).run.run b = (.ok (x, slots), b₁) :=
        run_bind_ok hrun₁
      rw [List.mapM_cons, run_bind_ok hstep, run_bind_ok hrun₂]
      rfl
    · have hadded : b₁.epoch.ops.values = b.epoch.ops.values ++ [x.2] := by
        rw [hfills.ops]
        exact Table.values_insert_of_notMem hnew.1 x.2
      rw [hvalues, hadded, List.map_cons, List.append_assoc, List.singleton_append]

/-! ## Connecting the chain -/

/-- Ops next to each other share no column. -/
theorem shared_eq_zero {a c : Op} (h : a.x.toNat + a.width.toNat ≤ c.x.toNat) :
    a.shared c .x = 0 := by
  rw [Op.shared_eq]
  simp only [Op.start, Op.size]
  omega

/-- Every further op is fed, at the cost of two L1 buffers for each core. -/
theorem spends_connectChain (hsources : SlotsOf sources e producer)
    (hlow : producer.height.toNat ≤ 4) (hchip : producer.chip = 0) (hstands : Stands e chain)
    (hplaces : ∀ c ∈ chain, c.1.1.Places p c.1.2)
    (hwidth : ∀ c ∈ chain, c.1.2.width.toNat ≤ 2 ^ 30)
    (hleft : ∀ c ∈ chain, producer.x.toNat + producer.width.toNat ≤ c.1.2.x.toNat)
    (hcolumns : chain.Pairwise fun c d => c.1.2.x.toNat + c.1.2.width.toNat ≤ d.1.2.x.toNat) :
    (connectChain sources chain).Spends (perCore 2 1 4 (chainCores (chain.map (·.1)))) e
      fun _ _ => True := by
  induction chain generalizing e sources producer with
  | nil => exact .nothing
  | cons c chain ih =>
    rw [Stands, List.forall_mem_cons] at hstands
    rw [List.forall_mem_cons] at hplaces hwidth hleft
    rw [List.pairwise_cons] at hcolumns
    obtain ⟨hslots, hstands⟩ := hstands
    have hplace := hplaces.1
    have hcost : perCore 1 1 2 (opCores c.1.2) + (perCore 1 0 2 (opCores c.1.2) +
        perCore 2 1 4 (chainCores (chain.map (·.1)))) ≤
        perCore 2 1 4 (chainCores ((c :: chain).map (·.1))) := by
      rw [List.map_cons, chainCores_cons, perCore_append, ← add_assoc, perCore_add]
    refine .seq _ (hslots.spends_forM spends_feedSecond) hcost fun _ e₁ h₁ _ => ?_
    have hconnect := spends_connect (hsources.under h₁.toUnder) (hslots.under h₁.toUnder)
      (hchip.trans hplace.chip.symm) (shared_eq_zero hleft.1) hplace hlow hwidth.1
    rw [hslots.cores] at hconnect
    refine hconnect.seq _ le_rfl fun _ e₂ h₂ _ => ?_
    have h' := h₁.trans h₂
    exact ih (hslots.under h'.toUnder) hplace.low hplace.chip (Stands.under hstands h'.toUnder)
      hplaces.2 hwidth.2 hcolumns.1 hcolumns.2

/-! ## The whole chain -/

/-- All ops of a chain are fed, the first one from queues, and `k` comes after. -/
theorem spends_feedAll {left : Budget} {k : Build Unit}
    (hlayout : Layout p ((c :: chain).map (·.1)))
    (hwidth : ∀ d ∈ chain, d.1.2.width.toNat ≤ 2 ^ 30) (hstands : Stands e (c :: chain))
    (hk : ∀ e', e.Fills e' → k.Spends left e' fun _ _ => True) :
    Spends (do
      c.2.forM feedSecond
      c.2.forM feedFirst
      connectChain c.2 chain
      k) (perCore 2 2 4 (chainCores ((c :: chain).map (·.1))) + left) e fun _ _ => True := by
  rw [Stands, List.forall_mem_cons] at hstands
  obtain ⟨hslots, hstands⟩ := hstands
  have hplaces := List.forall_mem_map.1 hlayout.places
  rw [List.forall_mem_cons] at hplaces
  have hcolumns := List.pairwise_cons.1 (List.pairwise_map.1 hlayout.columns)
  have hcost : perCore 1 1 2 (opCores c.1.2) + (perCore 0 1 1 (opCores c.1.2) +
      (perCore 2 1 4 (chainCores (chain.map (·.1))) + left)) ≤
      perCore 2 2 4 (chainCores ((c :: chain).map (·.1))) + left := by
    have hfirst : perCore 1 1 2 (opCores c.1.2) + perCore 0 1 1 (opCores c.1.2) ≤
        perCore 2 2 4 (opCores c.1.2) := by
      rw [perCore_add]
      exact budget_le (nsmul_le_nsmul_left zero_le (by decide)) le_rfl
        (Nat.mul_le_mul_right _ (by decide))
    have hrest : perCore 2 1 4 (chainCores (chain.map (·.1))) ≤
        perCore 2 2 4 (chainCores (chain.map (·.1))) :=
      budget_le le_rfl (Nat.mul_le_mul_right _ (by decide)) le_rfl
    rw [List.map_cons, chainCores_cons, perCore_append, ← add_assoc, ← add_assoc]
    exact add_le_add_left (add_le_add hfirst hrest) left
  refine .seq _ (hslots.spends_forM spends_feedSecond) hcost fun _ e₁ h₁ _ => ?_
  refine .seq _ ((hslots.under h₁.toUnder).spends_forM spends_feedFirst) le_rfl fun _ e₂ h₂ _ => ?_
  have h₂' := h₁.trans h₂
  have hchain := spends_connectChain (hslots.under h₂'.toUnder) hplaces.1.low hplaces.1.chip
    (Stands.under hstands h₂'.toUnder) hplaces.2 hwidth hcolumns.1 hcolumns.2
  exact hchain.seq left le_rfl fun _ e₃ h₃ _ => hk e₃ (h₂'.trans h₃)

/-- With ethernet, the first core of the mesh has a link. -/
theorem ethernet_first (heth : p.ethernet = true) (hx : 0 < p.gridX.toNat) :
    p.device.ethernet[0]? = some ⟨0, 0⟩ := by
  have hcount : 0 < (p.gridX.toNat + 1) / 2 := by omega
  rw [Params.device]
  simp only [heth, if_true, List.getElem?_map, List.getElem?_range hcount]
  rfl

/-- The outputs of the last op are drained, and one of them is linked to the next chip. -/
theorem spends_deliver {last : List Slot} (hlast : SlotsOf last e op)
    (hdevice : e.device = p.device) :
    (deliver p last).Spends (perCore 0 1 1 (opCores op) + linkCost) e fun _ _ => True := by
  refine .seq linkCost (hlast.spends_forM spends_drain) le_rfl fun _ e' h' _ => ?_
  have hlast := hlast.under h'.toUnder
  have hgrid := hlast.grid
  obtain ⟨s, hs, hfirst⟩ := exists_element (List.length_pos_iff.2 hlast.ne_nil)
  have hslot := hlast.slot s hs
  refine .ite (fun _ => .lift_bind hfirst (.ite (fun heth => ?_) fun _ => ?_)) fun _ => .nothing
  · refine spends_linkOverEthernet hslot hlast.onMesh hgrid.1 hgrid.2 ?_
    rw [h'.device, hdevice] at hgrid ⊢
    exact ethernet_first heth hgrid.1
  · exact spends_linkOverHost hslot hlast.onMesh hgrid.1 hgrid.2

/-- What the construction takes at most: five L1 buffers for each core of an op, and the link. -/
def chainCost (ops : List (Planned × Op)) : Budget := perCore 5 3 5 (chainCores ops) + linkCost

/-- The cores of an op are among those of the chain. -/
theorem length_opCores_le {x : Planned × Op} (hx : x ∈ ops) :
    (opCores x.2).length ≤ (chainCores ops).length := by
  have hmem : opCores x.2 ∈ ops.map (opCores ·.2) := List.mem_map.2 ⟨x, hx, rfl⟩
  rw [chainCores, List.flatMap_def]
  exact (List.sublist_flatten_of_mem hmem).length_le

/-- A chain of ops in place is fed and drained. -/
theorem spends_wireChain (hchain : chain ≠ []) (hlayout : Layout p (chain.map (·.1)))
    (hwidth : ∀ d ∈ chain.tail, d.1.2.width.toNat ≤ 2 ^ 30) (hstands : Stands e chain)
    (hdevice : e.device = p.device) :
    Spends (do
      let first := (← element chain 0).2
      first.forM feedSecond
      first.forM feedFirst
      connectChain first chain.tail
      deliver p (← element chain (chain.length - 1)).2)
      (perCore 2 3 5 (chainCores (chain.map (·.1))) + linkCost) e fun _ _ => True := by
  obtain ⟨last, hmem, hlast⟩ := exists_element (l := chain) (i := chain.length - 1)
    (Nat.sub_lt (List.length_pos_iff.2 hchain) Nat.one_pos)
  obtain ⟨c, chain, rfl⟩ := List.exists_cons_of_ne_nil hchain
  have hlength : (opCores last.1.2).length ≤ (chainCores ((c :: chain).map (·.1))).length :=
    length_opCores_le (List.mem_map_of_mem hmem)
  have hdrain : perCore 0 1 1 (opCores last.1.2) ≤
      perCore 0 1 1 (chainCores ((c :: chain).map (·.1))) :=
    budget_le (by simp [perCore]) (by simpa [perCore] using hlength)
      (by simpa [perCore] using hlength)
  have hsplit : perCore 2 3 5 (chainCores ((c :: chain).map (·.1))) + linkCost =
      perCore 2 2 4 (chainCores ((c :: chain).map (·.1))) +
        (perCore 0 1 1 (chainCores ((c :: chain).map (·.1))) + linkCost) := by
    rw [← add_assoc, perCore_add]
  rw [hsplit]
  refine .lift_bind (element_eq_ok.2 rfl) (spends_feedAll hlayout hwidth hstands fun e' h' => ?_)
  refine .lift_bind hlast ?_
  have hslots := (hstands last hmem).under h'.toUnder
  exact (spends_deliver hslots (h'.device.trans hdevice)).of_le (add_le_add_left hdrain _)

/-- A chain of ops is built on an epoch without ops. -/
theorem run_buildChain (hne : ops ≠ []) (hlayout : Layout p ops)
    (hwidth : ∀ x ∈ ops.tail, x.2.width.toNat ≤ 2 ^ 30) (hb : b.Sound (chainCost ops))
    (hdevice : b.epoch.device = p.device) (hops : b.epoch.ops.toList = []) :
    ∃ b', (buildChain p ops).run.run b = (.ok (), b') ∧ b'.Sound 0 ∧
      b'.epoch.index = b.epoch.index ∧ b'.epoch.device = p.device ∧
      b'.epoch.ops.values = ops.map (·.2) := by
  have hcost : chainCost ops =
      perCore 3 0 0 (chainCores ops) + (perCore 2 3 5 (chainCores ops) + linkCost) := by
    rw [← add_assoc, perCore_add, chainCost]
  have hnone : b.epoch.ops.keys = [] ∧ b.epoch.ops.values = [] := by
    simp [Table.keys, Table.values, hops]
  obtain ⟨chain, b₁, hrun, rfl, hstands, hb₁, hunder, hindex, hvalues⟩ :=
    run_addOps (hcost ▸ hb) (by simp [hnone.1]) hlayout.names fun x hx =>
      ⟨hdevice.symm ▸ (hlayout.places x hx).onMesh, (hlayout.places x hx).name⟩
  rw [hnone.2, List.nil_append] at hvalues
  have hdevice₁ := hunder.device.trans hdevice
  have hchain : chain ≠ [] := fun hnil => hne (congrArg (List.map _) hnil)
  have hwidth : ∀ d ∈ chain.tail, d.1.2.width.toNat ≤ 2 ^ 30 := by
    rw [← List.map_tail] at hwidth
    exact List.forall_mem_map.1 hwidth
  obtain ⟨_, b', hrun', hb', hfills, _⟩ := spends_wireChain hchain hlayout hwidth hstands hdevice₁
    0 b₁ rfl (by rwa [add_zero])
  refine ⟨b', ?_, hb', hfills.index.trans hindex, hfills.device.trans hdevice₁,
    hfills.ops.symm ▸ hvalues⟩
  rw [buildChain, run_bind_ok hrun]
  exact hrun'

end TorusRouting.Synthesis
