import TorusRouting.Proofs.Routing.Classification

/-!
# Channels and outgoing networks

The channels of a route, and the network it leaves on into an op, follow from the class of the pipe
alone. Together with what classification says of a pipe into an op, they follow from what the
consumer declared, from the answer of the oracle, and from the shape of the pipe.
-/

namespace TorusRouting

/-- The incoming leg is a write: over PCIe, into a queue, or from a queue that is staged. -/
def PipeClass.Writes (c : PipeClass) : Prop :=
  c.pcie = true ∨ c.dest = .queue ∨
    (c.source = .queue ∧ c.prologQueue = true ∧ c.dest = .prologInter)

instance (c : PipeClass) : Decidable c.Writes :=
  inferInstanceAs (Decidable (_ ∨ _))

/-- What the class of a pipe settles of its route. -/
structure Route.Follows (l : Route) (c : PipeClass) : Prop where
  intoQueue : c.dest = .queue → l = Epoch.dramRoute l.incoming
  fixed : c.dest = .queue → c.pcie = true ∨ c.untilizes = true → l.incoming = .noc0
  intoOp : c.dest = .op → l.outgoing = .noc1If c.noc1 ∧ l.outgoingVc = .data c.multicast
  incomingVc : l.incomingVc = if c.Writes then .dramWrite else .unicast

namespace Epoch

variable {e : Epoch} {config : Config} {oracle : Oracle} {p : Pipe} {c : PipeClass}
  {firstIn firstOut : BufferId} {src dst : Core}

/-! ## Routes and classes -/

/-- A route on the DRAM write channel is for writes, but not into ops. -/
theorem dramRoute_follows {n : Network} (hw : c.Writes) (hop : c.dest ≠ .op)
    (hn : c.dest = .queue → c.pcie = true ∨ c.untilizes = true → n = .noc0) :
    (dramRoute n).Follows c where
  intoQueue _ := rfl
  fixed := hn
  intoOp h := absurd h hop
  incomingVc := (if_pos hw).symm

/-- A route of data between cores is for anything but writes. -/
theorem data_follows {incoming outgoing : Network} (hw : ¬ c.Writes)
    (hout : c.dest = .op → outgoing = .noc1If c.noc1) :
    Route.Follows ⟨incoming, outgoing, .unicast, .data c.multicast⟩ c where
  intoQueue h := absurd (Or.inr (Or.inl h)) hw
  fixed h := absurd (Or.inr (Or.inl h)) hw
  intoOp h := ⟨hout h, rfl⟩
  incomingVc := (if_neg hw).symm

/-- Every route that is selected follows from the class. The cases are tried in the order of the
selection. -/
theorem selectRoute_follows {route : Option Route} {fit : Fit}
    (h : e.selectRoute config p c firstIn firstOut src dst = .ok (route, fit))
    (he : c.ethernet = false) : ∃ l, route = some l ∧ l.Follows c := by
  unfold selectRoute at h
  rw [he, if_neg Bool.false_ne_true] at h
  split at h
  · rename_i hpcie
    split at h
    · rename_i hqueue
      cases h
      exact ⟨_, rfl, dramRoute_follows (Or.inl hpcie) (by simp [hqueue]) fun _ _ => rfl⟩
    · rename_i hqueue
      cases h
      exact ⟨_, rfl, fun hd => absurd hd hqueue, fun hd => absurd hd hqueue, fun _ => ⟨rfl, rfl⟩,
        (if_pos (Or.inl hpcie)).symm⟩
  · rename_i hpcie
    split at h
    · rename_i hqueue
      have hwrites : c.Writes := Or.inr (Or.inl hqueue)
      split at h
      · cases h
        exact ⟨_, rfl, dramRoute_follows hwrites (by simp [hqueue]) fun _ _ => rfl⟩
      · rename_i huntilizes
        have hfollows (n : Network) : (dramRoute n).Follows c := by
          refine dramRoute_follows hwrites (by simp [hqueue]) fun _ hor => ?_
          exact absurd hor (not_or.2 ⟨hpcie, huntilizes⟩)
        dsimp only at h
        split at h
        · obtain ⟨n, _, h⟩ := bind_eq_ok.1 h
          cases h
          exact ⟨_, rfl, hfollows n⟩
        · cases h
          exact ⟨_, rfl, hfollows .noc1⟩
        · cases h
          exact ⟨_, rfl, hfollows .noc0⟩
    · rename_i hqueue
      split at h
      · rename_i hsource
        split at h
        · rename_i hprolog
          split at h
          · rename_i hinter
            cases h
            have hwrites : c.Writes := Or.inr (Or.inr ⟨hsource, hprolog, hinter⟩)
            exact ⟨_, rfl, dramRoute_follows hwrites (by simp [hinter]) fun hd => absurd hd hqueue⟩
          · rename_i hinter
            cases h
            exact ⟨_, rfl, data_follows (by simp [PipeClass.Writes, hpcie, hqueue, hinter])
              fun _ => rfl⟩
        · rename_i hprolog
          have hwrites : ¬ c.Writes := by simp [PipeClass.Writes, hpcie, hqueue, hprolog]
          have hout : c.dest = .op → (if c.dest = .relay then Network.noc0
              else .noc1If c.noc1) = .noc1If c.noc1 := by
            intro hop
            rw [hop]
            rfl
          dsimp only at h
          split at h
          · obtain ⟨n, _, h⟩ := bind_eq_ok.1 h
            cases h
            exact ⟨_, rfl, data_follows hwrites hout⟩
          · cases h
            exact ⟨_, rfl, data_follows hwrites hout⟩
          · cases h
            exact ⟨_, rfl, data_follows hwrites hout⟩
      · rename_i hsource
        have hwrites : ¬ c.Writes := by simp [PipeClass.Writes, hpcie, hqueue, hsource]
        split at h
        · cases h
          exact ⟨_, rfl, data_follows hwrites fun _ => rfl⟩
        · split at h
          · obtain ⟨n, _, h⟩ := bind_eq_ok.1 h
            cases h
            exact ⟨_, rfl, data_follows hwrites fun _ => rfl⟩
          · obtain ⟨⟨n, _⟩, _, h⟩ := bind_eq_ok.1 h
            cases h
            exact ⟨_, rfl, data_follows hwrites fun _ => rfl⟩

/-- A selected routing is direct where the class is, and holds a selected route. -/
theorem select_eq_ok {r : Routing} (h : e.select config p c = .ok r) :
    r.direct = c.direct ∧ ∃ firstIn firstOut src dst,
      e.selectRoute config p c firstIn firstOut src dst = .ok (r.route, r.fit) := by
  unfold select at h
  split at h
  · rename_i firstIn _
    split at h
    · rename_i firstOut _
      obtain ⟨src, _, h⟩ := bind_eq_ok.1 h
      obtain ⟨dst, _, h⟩ := bind_eq_ok.1 h
      obtain ⟨⟨route, fit⟩, hroute, h⟩ := bind_eq_ok.1 h
      cases pure_eq_ok.1 h
      exact ⟨rfl, firstIn, firstOut, src.core, dst.core, hroute⟩
    · cases h
  · cases h

/-- What is selected for a pipe on the on-chip networks follows from its class. -/
theorem select_follows {r : Routing} (h : e.select config p c = .ok r) (he : c.ethernet = false) :
    ∃ l, r.route = some l ∧ l.Follows c := by
  obtain ⟨_, _, _, _, _, hroute⟩ := select_eq_ok h
  exact selectRoute_follows hroute he

/-! ## Channels and networks of a classified pipe -/

/-- The input of a consumer is fed over `noc1`, unless an oracle decides otherwise. -/
def PrefersNoc1 (consumer : Op) (input : UInt64) : Prop :=
  (consumer.broadcast input).noc1 = true ∨
    (consumer.broadcast input).row = false ∧ (consumer.broadcast input).col = false ∧
      ¬ (consumer.transposed = true ↔ input.toNat % 2 = 1)

private theorem prefersNoc1_iff (consumer : Op) (input : UInt64) : PrefersNoc1 consumer input ↔
    ((consumer.broadcast input).noc1 || (!(consumer.broadcast input).row &&
      !(consumer.broadcast input).col && (consumer.transposed ^^ input % 2 == 1))) = true := by
  have hodd : (input % 2 == 1) = decide (input.toNat % 2 = 1) := by
    rw [Bool.eq_iff_iff, beq_iff_eq, decide_eq_true_eq, ← UInt64.toNat_inj, UInt64.toNat_mod]
    rfl
  rw [hodd, PrefersNoc1]
  cases consumer.transposed <;> by_cases h : input.toNat % 2 = 1 <;> simp [h]

/-- The channels of a routed pipe and the network it leaves on. Into a queue everything runs on the
DRAM write channel of one network. Into an op the outgoing channel tells whether the pipe is a
multicast, and the outgoing network is the oracle's for a direct multicast and the preferred one of
the input otherwise. The incoming channel is for DRAM writes exactly where the class says so. -/
theorem route_discipline (hc : e.classify oracle p = .ok c) (he : c.ethernet = false) {r : Routing}
    (hs : e.select config p c = .ok r) :
    ∃ src dst l, e.Ends p src dst ∧ c.source = src.endpoint e.device ∧
      c.dest = dst.endpoint e.device ∧ r.route = some l ∧
      (c.dest = .queue → l.incomingVc = .dramWrite ∧ l.outgoingVc = .dramWrite ∧
        l.incoming = l.outgoing ∧ (c.pcie = true ∨ c.untilizes = true → l.incoming = .noc0)) ∧
      (c.dest = .op → ∃ key input consumer, dst.owner = some (.consumer key input) ∧
        e.ops.get? key = some consumer ∧
        l.outgoingVc = (if p.isMulticast then .multicast else .unicast) ∧
        (p.isMulticast = true → ∀ o ∈ p.outputs, 1 < o.length) ∧
        (r.direct = true → ∃ owner producer, src.owner = some owner ∧
          e.ops.get? owner.op = some producer ∧
          oracle e.device producer consumer (asks p consumer input) = .ok (some l.outgoing)) ∧
        (r.direct = false → (l.outgoing = .noc1 ↔ PrefersNoc1 consumer input))) ∧
      l.incomingVc = (if c.Writes then .dramWrite else .unicast) := by
  obtain ⟨src, dst, hends, _, hcls⟩ := classifies_of_classify hc
  have hdirect := (select_eq_ok hs).1
  obtain ⟨l, hl, hfollows⟩ := select_follows hs he
  refine ⟨src, dst, l, hends, hcls.ends.1, hcls.ends.2, hl, ?_, ?_, hfollows.incomingVc⟩
  · intro hqueue
    have hdram := hfollows.intoQueue hqueue
    refine ⟨?_, ?_, ?_, hfollows.fixed hqueue⟩ <;> rw [hdram] <;> rfl
  · intro hop
    obtain ⟨producer, consumer, input, hdelivers⟩ := hcls.delivers he hop
    obtain ⟨key, howner, hconsumer⟩ := consumerOf_eq_ok.1 hdelivers.receiver
    obtain ⟨hout, hvc⟩ := hfollows.intoOp hop
    refine ⟨key, input, consumer, howner, hconsumer, ?_, ?_, ?_, ?_⟩
    · rw [hvc, hdelivers.multicast]
      rfl
    · intro hmulticast o ho
      exact (hdelivers.even o ho).2 hmulticast
    · intro h
      obtain ⟨_, owner, op, howner', hget, hanswer⟩ := hdelivers.direct (hdirect ▸ h)
      exact ⟨owner, op, howner', hget, hout ▸ hanswer⟩
    · intro h
      rw [hout, hdelivers.preferred (hdirect ▸ h), prefersNoc1_iff]
      cases (consumer.broadcast input).noc1 || _ <;> simp [Network.noc1If]

/-- An op that broadcasts along the rows of another one next to it. -/
def rowBroadcast : Epoch where
  index := 0
  device := { gridX := 8, gridY := 10, ethernet := [], l1Bytes := 1024, reservedBytes := 0 }
  ops := .ofList [
    ("prod", ⟨"prod", 0, 1, 2, 1, 1, false, false, []⟩),
    ("cons", ⟨"cons", 0, 2, 2, 2, 1, false, false, [{ row := true }]⟩)]
  buffers := .ofList [
    (⟨1⟩, ⟨⟨1⟩, .opOutput, ⟨0, 1, 2⟩, none, some (.producer "prod"), 16, 1, 8, 2⟩),
    (⟨2⟩, ⟨⟨2⟩, .opInput, ⟨0, 2, 2⟩, none, some (.consumer "cons" 0), 16, 1, 8, 2⟩),
    (⟨3⟩, ⟨⟨3⟩, .opInput, ⟨0, 3, 2⟩, none, some (.consumer "cons" 0), 16, 1, 8, 2⟩)]
  pipes := .ofList [(⟨10⟩, ⟨⟨10⟩, [⟨1⟩], [[⟨2⟩, ⟨3⟩]], [], none⟩)]

/-- A row broadcast is routed directly, and leaves on the channel of multicasts. -/
theorem route_discipline_rowBroadcast :
    ∃ p c r l, rowBroadcast.pipes.get? ⟨10⟩ = some p ∧
      rowBroadcast.classify .adjacent p = .ok c ∧ c.ethernet = false ∧
      rowBroadcast.select {} p c = .ok r ∧ r.direct = true ∧ r.route = some l ∧
      l.incomingVc = .unicast ∧ l.outgoingVc = .multicast := by
  let p : Pipe := ⟨⟨10⟩, [⟨1⟩], [[⟨2⟩, ⟨3⟩]], [], none⟩
  let c : PipeClass :=
    { sourceOp := some "prod", destOp := some "cons", row := true, direct := true, timesteps := 1 }
  let r : Routing := ⟨some ⟨.noc0, .noc0, .unicast, .multicast⟩, true, .exact, false⟩
  have hc : rowBroadcast.classify .adjacent p = .ok c := by decide
  have hs : rowBroadcast.select {} p c = .ok r := by decide
  obtain ⟨_, _, l, _, _, _, hl, _, hop, hvc⟩ := route_discipline hc rfl hs
  obtain ⟨_, _, _, _, _, hout, _⟩ := hop rfl
  exact ⟨p, c, r, l, by decide, hc, rfl, hs, rfl, hl, hvc, hout⟩

end Epoch

end TorusRouting
