import TorusRouting.Proofs.L1.Turns

/-!
# How evenly greedy growth shares a core

Buffers that start alike grow abreast: nobody asks for a size before all others that still grow have
reached the one below it. When a buffer is refused a size, no peer is above that size, so whatever
the peers hold above it in the end was paid from what was left at the refusal, and that was less
than the refused step. The peers can still run ahead of the refused buffer by several smaller steps.
-/

namespace TorusRouting

open Relay

namespace Relay.Growth

variable {g : Growth Ledger} {core : Core} {cap : Nat}

/-! ## Growing abreast -/

/-- Bytes that the candidates hold above a size. -/
def heldAbove (s : Nat) (cands : List Candidate) : Nat :=
  total (cands.map fun c => (c.allocated - s) * c.tileBytes)

/-- Each larger size of the candidate costs more than is left and all that is held above the
size. -/
def Outbid (g : Growth Ledger) (core : Core) (c : Candidate) : Prop :=
  ∀ s ∈ c.sizes, c.allocated < s →
    heldAbove s g.cands + (g.model.available core).toNat < (s - c.allocated) * c.tileBytes

private theorem heldAbove_eq_zero {s : Nat} {cands : List Candidate}
    (h : ∀ c ∈ cands, c.allocated ≤ s) :
    heldAbove s cands = 0 := by
  induction cands with
  | nil => rfl
  | cons c cands ih =>
    rw [List.forall_mem_cons] at h
    rw [heldAbove, List.map_cons, total_cons, Nat.sub_eq_zero_of_le h.1, Nat.zero_mul, Nat.zero_add]
    exact ih h.2

private theorem heldAbove_set (s : Nat) {cands : List Candidate} {i : Nat} {c : Candidate}
    (hc : cands[i]? = some c) (d : Candidate) :
    heldAbove s (cands.set i d) + (c.allocated - s) * c.tileBytes =
      heldAbove s cands + (d.allocated - s) * d.tileBytes := total_map_set _ hc

/-- Growth on a core where those who still grow wait for the cap, and those who do not were
outbid. -/
structure Abreast (g : Growth Ledger) (core : Core) (cap : Nat) : Prop where
  settling : g.Settling core
  below : ∀ c ∈ g.cands, c.allocated ≤ cap
  waits : ∀ c ∈ g.cands, c.exhausted = false → ∀ s ∈ c.sizes, c.allocated < s → cap ≤ s
  outbid : ∀ c ∈ g.cands, c.exhausted = true → g.Outbid core c

/-- A refusal comes when nobody is above the size that is refused. -/
theorem Abreast.refused (h : g.Abreast core cap) {i : Nat} {c : Candidate}
    (hc : g.cands[i]? = some c) (hactive : c.exhausted = false)
    (hstuck : c.Stuck (g.model.available core).toNat)
    (hsettling : (g.settle i c (none, g.model)).Settling core) :
    (g.settle i c (none, g.model)).Abreast core cap := by
  have hcm := List.mem_of_getElem? hc
  have hheld (s : Nat) : heldAbove s (g.settle i c (none, g.model)).cands = heldAbove s g.cands :=
    Nat.add_right_cancel (heldAbove_set s hc (c.after none))
  refine ⟨hsettling, fun d hd => ?_, fun d hd hd' => ?_, fun d hd hd' s hs hlt => ?_⟩
  · rcases List.mem_or_eq_of_mem_set hd with hd | rfl
    · exact h.below d hd
    · exact h.below c hcm
  · rcases List.mem_or_eq_of_mem_set hd with hd | rfl
    · exact h.waits d hd hd'
    · cases hd'
  · rw [hheld]
    rcases List.mem_or_eq_of_mem_set hd with hd | rfl
    · exact h.outbid d hd hd' s hs hlt
    · have hcap := h.waits c hcm hactive s hs hlt
      rw [heldAbove_eq_zero fun d hd => (h.below d hd).trans hcap, Nat.zero_add]
      exact hstuck s hs hlt

/-- What a move adds above any size is paid from what is left. -/
theorem Abreast.moved (h : g.Abreast core cap) {i : Nat} {c : Candidate}
    (hc : g.cands[i]? = some c) (hactive : c.exhausted = false) {next : Nat} {l' : Ledger}
    (hnext : c.allocated < next) (hcap : next ≤ cap)
    (hpaid : (l'.available core).toNat + (next - c.allocated) * c.tileBytes =
      (g.model.available core).toNat) {step : GrowthStep} (hstep : step.after = next)
    (hsettling : (g.settle i c (some step, l')).Settling core) :
    (g.settle i c (some step, l')).Abreast core cap := by
  subst hstep
  have hcm := List.mem_of_getElem? hc
  have hheld (s : Nat) : heldAbove s (g.settle i c (some step, l')).cands +
      (l'.available core).toNat ≤ heldAbove s g.cands + (g.model.available core).toNat := by
    have hset := heldAbove_set s hc { c with allocated := step.after }
    have hstep : (step.after - s) * c.tileBytes ≤
        (c.allocated - s) * c.tileBytes + (step.after - c.allocated) * c.tileBytes := by
      rw [← Nat.add_mul]
      exact Nat.mul_le_mul_right _ (by omega)
    dsimp only at hset
    change heldAbove s (g.cands.set i { c with allocated := step.after }) + _ ≤ _
    omega
  refine ⟨hsettling, fun d hd => ?_, fun d hd hd' s hs hlt => ?_, fun d hd hd' s hs hlt => ?_⟩
  · rcases List.mem_or_eq_of_mem_set hd with hd | rfl
    · exact h.below d hd
    · exact hcap
  · rcases List.mem_or_eq_of_mem_set hd with hd | rfl
    · exact h.waits d hd hd' s hs hlt
    · exact h.waits c hcm hactive s hs (hnext.trans hlt)
  · rcases List.mem_or_eq_of_mem_set hd with hd | rfl
    · exact (hheld s).trans_lt (h.outbid d hd hd' s hs hlt)
    · exact absurd (hactive.symm.trans hd') Bool.false_ne_true

/-- A visit keeps the candidates abreast. -/
theorem Abreast.visit (h : g.Abreast core cap) (i : Nat) : (visit cap g i).Abreast core cap := by
  have hsettling := h.settling.visit cap i
  obtain heq | ⟨c, hc, hactive, ⟨hstuck, heq⟩ | ⟨next, l', hnext, hcap, hpaid, heq⟩⟩ :=
    h.settling.visit_cases cap i
  · rw [heq]
    exact h
  · rw [heq] at hsettling ⊢
    exact h.refused hc hactive hstuck hsettling
  · rw [heq] at hsettling ⊢
    exact h.moved hc hactive (Candidate.nextSize?_eq_some hnext).2 hcap hpaid rfl hsettling

/-- The cap rises to a size that nobody has passed and nobody waits below. -/
theorem Abreast.raise (h : g.Abreast core cap) (hidle : ∀ c ∈ g.cands, c.Idle cap) {next : Nat}
    (hnext : nextCap? g.cands = some next) : g.Abreast core next := by
  obtain ⟨⟨c, hc, hactive, hsize⟩, hleast⟩ := nextCap?_eq_some hnext
  have hlt : cap < next := by
    rcases hidle c hc with hexhausted | habove
    · exact absurd (hactive.symm.trans hexhausted) Bool.false_ne_true
    · exact habove next hsize
  refine ⟨h.settling, fun d hd => (h.below d hd).trans hlt.le, fun d hd hd' s hs hlt => ?_,
    h.outbid⟩
  obtain ⟨n, hn⟩ : ∃ n, d.nextSize? = some n :=
    Option.isSome_iff_exists.1 (List.find?_isSome.2 ⟨s, hs, decide_eq_true hlt⟩)
  exact (hleast d hd hd' n hn).trans
    (Candidate.nextSize?_le (h.settling.ascending d hd) hn hs hlt)

/-- In the end every candidate that could still grow was outbid. -/
theorem Abreast.greedy_outbid (h : g.Abreast core cap) :
    ∀ c ∈ (greedy cap g).cands, (greedy cap g).Outbid core c := by
  obtain ⟨⟨_, hend⟩, hdone⟩ := greedy_invariant (P := fun cap g => g.Abreast core cap)
    (fun _ _ i h => h.visit i) (fun _ _ _ h hidle hnext => h.raise hidle hnext) cap h
  intro c hc
  rcases hdone c hc with hexhausted | hlargest
  · exact hend.outbid c hc hexhausted
  · intro s hs hlt
    exact absurd (decide_eq_true hlt) (List.find?_eq_none.1 hlargest s hs)

/-- Candidates that start with one allocation end outbid, or at their largest size. -/
theorem Fresh.run_outbid {cands : List Candidate} {l : Ledger} (h : Fresh core cands l)
    (hstart : ∀ c ∈ cands, ∀ d ∈ cands, c.allocated = d.allocated) :
    ∀ c ∈ (run .greedy core cands l).2.cands, (run .greedy core cands l).2.Outbid core c := by
  have habreast : (⟨cands, l, []⟩ : Growth Ledger).Abreast core
      ((cands.map (·.allocated)).max?.getD 0) := by
    have hcap (c : Candidate) (hc : c ∈ cands) :
        (cands.map (·.allocated)).max?.getD 0 = c.allocated := by
      cases hmax : (cands.map (·.allocated)).max? with
      | none =>
        rw [List.max?_eq_none_iff, List.map_eq_nil_iff] at hmax
        rw [hmax] at hc
        cases hc
      | some cap =>
        obtain ⟨d, hd, rfl⟩ := List.mem_map.1 (List.max?_mem hmax)
        exact hstart d hd c hc
    refine ⟨h.settling, fun c hc => ?_, fun c hc _ s _ hlt => ?_, fun c hc hexhausted => ?_⟩
    · exact (hcap c hc).ge
    · exact (hcap c hc).le.trans hlt.le
    · exact absurd ((h.active c hc).symm.trans hexhausted) Bool.false_ne_true
  cases cands with
  | nil => exact habreast.greedy_outbid
  | cons c rest =>
    cases rest with
    | cons d rest => exact habreast.greedy_outbid
    | nil =>
      intro d hd s hs hlt
      have halone : heldAbove s (run .greedy core [c] l).2.cands = 0 := by
        refine heldAbove_eq_zero fun d' hd' => ?_
        change d' ∈ [c].set 0 _ at hd'
        change d ∈ [c].set 0 _ at hd
        cases List.mem_singleton.1 hd
        cases List.mem_singleton.1 hd'
        exact hlt.le
      rw [halone, Nat.zero_add]
      exact h.run_stuck d hd s hs hlt

end Relay.Growth

/-- The buffers grow over the same sizes, from the same allocation. -/
def Buffer.Alike (b p : Buffer) : Prop :=
  p.tileBytes = b.tileBytes ∧ p.granule = b.granule ∧ p.totalTiles = b.totalTiles ∧
    p.allocated = b.allocated

instance (b p : Buffer) : Decidable (b.Alike p) := inferInstanceAs (Decidable (_ ∧ _))

private theorem Buffer.Alike.sizes_eq {b p : Buffer} (h : b.Alike p) (config : Config) :
    p.sizes config = b.sizes config := by
  obtain ⟨htile, hgranule, htotal, _⟩ := h
  rw [sizes, sizes, htile, hgranule, htotal]

namespace Epoch

variable {e e' : Epoch} {config : Config} {core : Core} {ids ids' : List BufferId} {l l' m : Ledger}
  {cands : List Candidate}

/-! ## The buffers of a core -/

/-- Tiles allocated to a stored buffer. -/
def tiles (e : Epoch) (id : BufferId) : Nat := ((e.buffers.get? id).map (·.allocated.toNat)).getD 0

/-- The buffers of a core that may grow. -/
def peers (e : Epoch) (config : Config) (core : Core) : List Buffer :=
  (e.growing config).filter (·.core = core)

/-- Bytes that the peers hold above a size, with the allocations of another epoch. -/
def heldAbove (e : Epoch) (config : Config) (core : Core) (e' : Epoch) (s : Nat) : Nat :=
  total ((e.peers config core).map fun p => (e'.tiles p.id - s) * p.tileBytes.toNat)

/-- The tiles of a stored buffer are its allocation. -/
theorem tiles_eq {id : BufferId} {b : Buffer} (h : e.buffers.get? id = some b) :
    e.tiles id = b.allocated.toNat := by
  rw [tiles, h]
  rfl

/-- The peers on a core are the buffers there that may grow. -/
theorem mem_peers {b : Buffer} :
    b ∈ e.peers config core ↔ b ∈ e.growing config ∧ b.core = core := by
  rw [peers, List.mem_filter, decide_eq_true_iff]

/-- A peer is stored under its id. -/
theorem WellKeyed.get?_peer (hk : e.WellKeyed) {p : Buffer} (hp : p ∈ e.peers config core) :
    e.buffers.get? p.id = some p :=
  hk.buffers.get?_key (mem_growing.1 (mem_peers.1 hp).1).1

/-- A peer stays, or moves up to one of its valid sizes. -/
theorem Grows.tiles_cases (h : e.Grows config ids e') (hk : e.WellKeyed) {p : Buffer}
    (hp : p ∈ e.peers config core) :
    e'.tiles p.id = p.allocated.toNat ∨
      p.allocated.toNat < e'.tiles p.id ∧ e'.tiles p.id ∈ p.sizes config := by
  obtain ⟨p', hp', hg⟩ := h.buffer _ p (hk.get?_peer hp)
  rw [tiles_eq hp']
  rcases hg.moved with heq | ⟨hlt, hsize⟩
  · exact Or.inl (by rw [heq])
  · exact Or.inr ⟨UInt64.lt_iff_toNat_lt.1 hlt, hsize⟩

/-- The candidates at the end of a turn show the peers as the epoch stores them. -/
theorem Turn.exists_peer (h : e.Turn config core ids cands m e' l') (hk : e.WellKeyed)
    (hgrows : e.Grows config ids' e') (hperm : ids.Perm ((e.peers config core).map (·.id)))
    {c : Candidate} (hc : c ∈ (Growth.run config.strategy core cands m).2.cands) :
    ∃ p ∈ e.peers config core, p.id = c.id ∧ c.sizes = p.sizes config ∧
      c.tileBytes = p.tileBytes.toNat ∧ c.allocated = e'.tiles p.id := by
  have hid : c.id ∈ ids := h.ids ▸ List.mem_map.2 ⟨c, hc, rfl⟩
  obtain ⟨p, hp, hpid⟩ := List.mem_map.1 (hperm.mem_iff.1 hid)
  obtain ⟨b', hb', hshow⟩ := h.shown c hc
  obtain ⟨p', hp', hg⟩ := hgrows.buffer _ p (hk.get?_peer hp)
  rw [← hpid] at hb'
  cases hb'.symm.trans hp'
  refine ⟨p, hp, hpid, ?_, ?_, ?_⟩
  · rw [hshow.sizes, hg.same]
    rfl
  · rw [hshow.tileBytes, hg.same]
  · rw [hshow.allocated, tiles_eq hp']

/-- The candidates at the start of a turn are the peers. -/
theorem Turn.exists_start (h : e.Turn config core ids cands m e' l') (hk : e.WellKeyed)
    (hperm : ids.Perm ((e.peers config core).map (·.id))) {c : Candidate} (hc : c ∈ cands) :
    ∃ p ∈ e.peers config core, c = .ofBuffer config core p.id p := by
  obtain ⟨hid, p, hp, hcp⟩ := h.candidates c hc
  obtain ⟨p', hp', hpid⟩ := List.mem_map.1 (hperm.mem_iff.1 hid)
  rw [← hpid, hk.get?_peer hp'] at hp
  cases hp
  exact ⟨p, hp', hpid ▸ hcp⟩

/-- At the end of a turn of buffers that started alike, every one was outbid. What its peers hold is
counted over the ids of the core, with the one tile size. -/
theorem Turn.outbid (h : e.Turn config core ids cands m e' l') (hk : e.WellKeyed)
    (hgrows : e.Grows config ids' e') (hperm : ids.Perm ((e.peers config core).map (·.id)))
    (hgreedy : config.strategy = .greedy)
    (halike : ∀ b ∈ e.peers config core, ∀ p ∈ e.peers config core, b.Alike p)
    {b : Buffer} (hb : b ∈ e.peers config core) {s : Nat} (hs : s ∈ b.sizes config)
    (hlt : e'.tiles b.id < s) :
    e.heldAbove config core e' s + (l'.available core).toNat <
      (s - e'.tiles b.id) * b.tileBytes.toNat := by
  have hstart (c : Candidate) (hc : c ∈ cands) (d : Candidate) (hd : d ∈ cands) :
      c.allocated = d.allocated := by
    obtain ⟨p, hpm, hp⟩ := h.exists_start hk hperm hc
    obtain ⟨q, hqm, hq⟩ := h.exists_start hk hperm hd
    rw [hp, hq]
    exact congrArg UInt64.toNat (halike q hqm p hpm).2.2.2
  have houtbid := h.fresh.run_outbid hstart
  have hpeer := fun c hc => h.exists_peer hk hgrows hperm (c := c) hc
  have hids := h.ids
  have hleft := h.left
  rw [hgreedy] at hpeer hids hleft
  have hheld : Growth.heldAbove s (Growth.run .greedy core cands m).2.cands =
      e.heldAbove config core e' s := by
    have hcands : (Growth.run .greedy core cands m).2.cands.map
          (fun c => (c.allocated - s) * c.tileBytes) =
        ids.map fun id => (e'.tiles id - s) * b.tileBytes.toNat := by
      rw [← hids, List.map_map]
      refine List.map_congr_left fun c hc => ?_
      obtain ⟨p, hp, hpid, _, htile, hallocated⟩ := hpeer c hc
      rw [hallocated, htile, (halike b hb p hp).1, hpid]
      rfl
    have hpeers : (e.peers config core).map (fun p => (e'.tiles p.id - s) * p.tileBytes.toNat) =
        ((e.peers config core).map (·.id)).map fun id => (e'.tiles id - s) * b.tileBytes.toNat := by
      rw [List.map_map]
      refine List.map_congr_left fun p hp => ?_
      rw [(halike b hb p hp).1]
      rfl
    rw [Growth.heldAbove, hcands, heldAbove, hpeers]
    exact total_perm (hperm.map _)
  have hid : b.id ∈ ids := hperm.mem_iff.2 (List.mem_map.2 ⟨b, hb, rfl⟩)
  obtain ⟨c, hc, hcid⟩ := List.mem_map.1 (hids ▸ hid)
  obtain ⟨p, hp, hpid, hsizes, htile, hallocated⟩ := hpeer c hc
  have hsame := halike b hb p hp
  have hbound := houtbid c hc s (by rw [hsizes, hsame.sizes_eq]; exact hs)
  rw [hallocated, htile, hsame.1, hpid, hcid, hheld] at hbound
  rw [hleft]
  exact hbound hlt

/-- Greedy upsizing of buffers that start alike on a core. In the end each larger valid size of a
buffer costs more than the bytes left and all that its peers hold above that size. So a peer passes
the size only by steps that are smaller together: none does if the steps from there on are no
smaller than the refused one. A buffer at its largest size has no peer above it. -/
theorem upsize_evenly (hk : e.WellKeyed) (hs : ∀ b ∈ e.growing config, b.check = .ok ())
    (hl : Ledger.ofEpoch e = .ok l) (hgreedy : config.strategy = .greedy)
    (halike : ∀ b ∈ e.peers config core, ∀ p ∈ e.peers config core, b.Alike p) :
    ∃ report e' l', e.upsize config l = (.ok report, e', l') ∧
      ∀ b ∈ e.peers config core,
        (∀ s ∈ b.sizes config, e'.tiles b.id < s →
          e.heldAbove config core e' s + (l'.available core).toNat <
            (s - e'.tiles b.id) * b.tileBytes.toNat ∧
          ((∀ t ∈ b.sizes config, s < t → s - e'.tiles b.id ≤ t - s) →
            ∀ p ∈ e.peers config core, e'.tiles p.id ≤ s)) ∧
        ((∀ s ∈ b.sizes config, s ≤ e'.tiles b.id) →
          ∀ p ∈ e.peers config core, e'.tiles p.id ≤ e'.tiles b.id) := by
  have haccounts := Ledger.ofEpoch_accounts hl
  obtain ⟨report, ids', e', l', heq, hup, _⟩ := upsize_upsized config hk hs haccounts
  refine ⟨report, e', l', heq, fun b hb => ?_⟩
  obtain ⟨hgrowing, rfl⟩ := mem_peers.1 hb
  obtain ⟨ids, cands, m, hperm, hturn⟩ := upsize_turn (hk.filed config) haccounts heq hgrowing
  have hmoved (p : Buffer) (hp : p ∈ e.peers config b.core) (hlt : e'.tiles b.id < e'.tiles p.id) :
      e'.tiles p.id ∈ b.sizes config := by
    have hsame := halike b hb p hp
    rcases hup.grows.tiles_cases hk hp with hstayed | ⟨_, hsize⟩
    · have hle : b.allocated.toNat ≤ e'.tiles b.id := by
        rcases hup.grows.tiles_cases hk hb with h | ⟨h, _⟩ <;> omega
      rw [hstayed, hsame.2.2.2] at hlt
      omega
    · exact hsame.sizes_eq config ▸ hsize
  refine ⟨fun s hsize hlt => ?_, fun hlargest p hp => ?_⟩
  · have hbound := hturn.outbid hk hup.grows hperm hgreedy halike hb hsize hlt
    refine ⟨hbound, fun hsteps p hp => ?_⟩
    by_contra hover
    have hstep := hsteps _ (hmoved p hp (by omega)) (by omega)
    have hheld : (e'.tiles p.id - s) * p.tileBytes.toNat ≤ e.heldAbove config b.core e' s :=
      le_total_of_mem (fun p => (e'.tiles p.id - s) * p.tileBytes.toNat) hp
    rw [(halike b hb p hp).1] at hheld
    have hmul := Nat.mul_le_mul_right b.tileBytes.toNat hstep
    omega
  · by_contra hover
    exact absurd (hlargest _ (hmoved p hp (by omega))) hover

/-- Three buffers whose sizes double at each step. -/
def doublingSteps : Epoch where
  index := 0
  device := { gridX := 4, gridY := 4, ethernet := [], l1Bytes := 40000, reservedBytes := 0 }
  ops := .empty
  buffers := .ofList [
    (⟨1⟩, ⟨⟨1⟩, .relay, ⟨0, 1, 1⟩, none, none, 1000, 2, 64, 2⟩),
    (⟨2⟩, ⟨⟨2⟩, .relay, ⟨0, 1, 1⟩, none, none, 1000, 2, 64, 2⟩),
    (⟨3⟩, ⟨⟨3⟩, .relay, ⟨0, 1, 1⟩, none, none, 1000, 2, 64, 2⟩)]
  pipes := .empty

/-- The third buffer is refused the step from 8 to 16 tiles, and the others go no further. -/
theorem upsize_evenly_doublingSteps :
    doublingSteps.WellKeyed ∧ (∀ b ∈ doublingSteps.growing {}, b.check = .ok ()) ∧
    ({} : Config).strategy = .greedy ∧
    (∀ b ∈ doublingSteps.peers {} ⟨0, 1, 1⟩, ∀ p ∈ doublingSteps.peers {} ⟨0, 1, 1⟩, b.Alike p) ∧
    ∃ l, Ledger.ofEpoch doublingSteps = .ok l ∧
      ∃ report e' l', doublingSteps.upsize {} l = (.ok report, e', l') ∧
        e'.tiles ⟨1⟩ = 16 ∧ e'.tiles ⟨3⟩ = 8 ∧
        doublingSteps.heldAbove {} ⟨0, 1, 1⟩ e' 16 + (l'.available ⟨0, 1, 1⟩).toNat <
          (16 - 8) * 1000 ∧
        ∀ p ∈ doublingSteps.peers {} ⟨0, 1, 1⟩, e'.tiles p.id ≤ 16 := by
  have hk : doublingSteps.WellKeyed := by decide
  have hs : ∀ b ∈ doublingSteps.growing {}, b.check = .ok () := by decide
  have hl : Ledger.ofEpoch doublingSteps = .ok ⟨40000, .ofList [(⟨0, 1, 1⟩, 6000)]⟩ := by decide
  have hgreedy : ({} : Config).strategy = .greedy := rfl
  have halike : ∀ b ∈ doublingSteps.peers {} ⟨0, 1, 1⟩,
      ∀ p ∈ doublingSteps.peers {} ⟨0, 1, 1⟩, b.Alike p := by decide
  have hfirst : (doublingSteps.upsize {}
      (⟨40000, .ofList [(⟨0, 1, 1⟩, 6000)]⟩ : Ledger)).2.1.tiles ⟨1⟩ = 16 := by cbv
  have hthird : (doublingSteps.upsize {}
      (⟨40000, .ofList [(⟨0, 1, 1⟩, 6000)]⟩ : Ledger)).2.1.tiles ⟨3⟩ = 8 := by cbv
  have hsizes : validSizes 2 64 130 = [2, 4, 8, 16, 32, 64] := by cbv
  obtain ⟨report, e', l', heq, heven⟩ := upsize_evenly hk hs hl hgreedy halike
  rw [heq] at hfirst hthird
  obtain ⟨hlaw, _⟩ :=
    heven ⟨⟨3⟩, .relay, ⟨0, 1, 1⟩, none, none, 1000, 2, 64, 2⟩ (by decide)
  have hb : (⟨⟨3⟩, .relay, ⟨0, 1, 1⟩, none, none, 1000, 2, 64, 2⟩ : Buffer).sizes {} =
      [2, 4, 8, 16, 32, 64] := hsizes
  rw [hb, hthird] at hlaw
  obtain ⟨hheld, hstep⟩ := hlaw 16 (by decide) (by decide)
  exact ⟨hk, hs, hgreedy, halike, _, hl, report, e', l', heq, hfirst, hthird, hheld,
    hstep (by decide)⟩

/-- Two buffers whose sizes go from 3 over 5 to 6, with three more tiles to share. -/
def unevenSteps : Epoch where
  index := 0
  device := { gridX := 4, gridY := 4, ethernet := [], l1Bytes := 144, reservedBytes := 0 }
  ops := .empty
  buffers := .ofList [
    (⟨1⟩, ⟨⟨1⟩, .relay, ⟨0, 1, 1⟩, none, none, 16, 1, 30, 3⟩),
    (⟨2⟩, ⟨⟨2⟩, .relay, ⟨0, 1, 1⟩, none, none, 16, 1, 30, 3⟩)]
  pipes := .empty

/-- A buffer can run ahead by more than one step: the second one is refused two tiles, and the one
tile that is left takes the first one from 5 to 6. -/
theorem unevenSteps_ahead :
    unevenSteps.WellKeyed ∧ unevenSteps.validate = .ok () ∧
    (∀ b ∈ unevenSteps.peers {} ⟨0, 1, 1⟩, ∀ p ∈ unevenSteps.peers {} ⟨0, 1, 1⟩, b.Alike p) ∧
    (∀ b ∈ unevenSteps.peers {} ⟨0, 1, 1⟩, b.sizes {} = [2, 3, 5, 6, 10, 15, 30]) ∧
    ∃ l, Ledger.ofEpoch unevenSteps = .ok l ∧
      ∃ report e' l', unevenSteps.upsize {} l = (.ok report, e', l') ∧
        (unevenSteps.peers {} ⟨0, 1, 1⟩).map (fun b => e'.tiles b.id) = [6, 3] := by
  have hl : Ledger.ofEpoch unevenSteps = .ok ⟨144, .ofList [(⟨0, 1, 1⟩, 96)]⟩ := by decide
  have hreport : (unevenSteps.upsize {} (⟨144, .ofList [(⟨0, 1, 1⟩, 96)]⟩ : Ledger)).1 =
      .ok ⟨[⟨⟨1⟩, ⟨0, 1, 1⟩, 3, 48⟩, ⟨⟨2⟩, ⟨0, 1, 1⟩, 0, 0⟩], [(⟨0, 1, 1⟩, 0)]⟩ := by cbv
  have htiles : (unevenSteps.peers {} ⟨0, 1, 1⟩).map (fun b => (unevenSteps.upsize {}
      (⟨144, .ofList [(⟨0, 1, 1⟩, 96)]⟩ : Ledger)).2.1.tiles b.id) = [6, 3] := by cbv
  have hsizes : validSizes 1 30 8125 = [2, 3, 5, 6, 10, 15, 30] := by cbv
  refine ⟨by decide, by decide, by decide, ?_, _, hl, _, _, _, Prod.ext hreport rfl, htiles⟩
  have hpeers : unevenSteps.peers {} ⟨0, 1, 1⟩ =
      [⟨⟨1⟩, .relay, ⟨0, 1, 1⟩, none, none, 16, 1, 30, 3⟩,
        ⟨⟨2⟩, .relay, ⟨0, 1, 1⟩, none, none, 16, 1, 30, 3⟩] := by decide
  rw [hpeers]
  exact List.forall_mem_cons.2 ⟨hsizes, List.forall_mem_singleton.2 hsizes⟩

end Epoch

end TorusRouting
