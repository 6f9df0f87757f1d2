import TorusRouting.Proofs.L1.Evenness

/-!
# What growth towards targets reaches

The spare bytes of a core are shared out by weight, and every buffer aims at what it has plus its
share. A buffer only grows while it is below its target, and then to a size that exceeds the target
by at most one tile. One that ends below its target was refused every such size, and what is left on
the core has only shrunk since.
-/

namespace TorusRouting

open Relay

namespace Relay

namespace Candidate

/-- The bytes left pay for no larger valid size up to a limit. -/
def Blocked (c : Candidate) (limit left : Nat) : Prop :=
  ∀ s ∈ c.sizes, c.allocated < s → s ≤ limit → left < (s - c.allocated) * c.tileBytes

/-- A blocked candidate is blocked by fewer bytes left, too. -/
theorem Blocked.mono {c : Candidate} {limit left left' : Nat} (h : c.Blocked limit left)
    (hle : left' ≤ left) : c.Blocked limit left' :=
  fun s hs hlt hlimit => hle.trans_lt (h s hs hlt hlimit)

end Candidate

namespace Growth

/-! ## The loop -/

/-- Nobody is picked when all candidates are exhausted or have reached their targets. -/
theorem furthest_eq_none {i : Nat} {cands : List Candidate} (h : furthest i cands = none) :
    ∀ c ∈ cands, c.exhausted = true ∨ deficit c = 0 := by
  induction cands generalizing i with
  | nil => exact List.forall_mem_nil _
  | cons c cands ih =>
    rw [furthest] at h
    split at h
    · rename_i hskip
      rw [Bool.or_eq_true, beq_iff_eq] at hskip
      exact List.forall_mem_cons.2 ⟨hskip, ih h⟩
    · split at h
      · cases h
      · split at h <;> cases h

/-- What every attempt on a candidate that is not exhausted keeps, growth towards targets keeps. It
stops when all candidates are exhausted or have reached their targets. -/
theorem towardsTargets_invariant {σ : Type} [ResourceModel σ] {P : Growth σ → Prop}
    (hstep : ∀ (g : Growth σ) (i : Nat) (c : Candidate), P g → g.cands[i]? = some c →
      c.exhausted = false →
        P (g.settle i c (c.growToFirst (c.sizesUpTo (tilesFor c)) g.model)))
    {g : Growth σ} (h : P g) (hdone : (towardsTargets g).1 = .ok ()) :
    P (towardsTargets g).2 ∧
      ∀ c ∈ (towardsTargets g).2.cands, c.exhausted = true ∨ deficit c = 0 := by
  fun_induction towardsTargets g with
  | case1 g hf => exact ⟨h, furthest_eq_none hf⟩
  | case2 g i c hf _ ih =>
    obtain ⟨k, hk, hc, hactive⟩ := furthest_eq_some hf
    rw [Nat.zero_add] at hk
    subst hk
    exact ih (hstep g i c h hc hactive) hdone
  | case3 => cases hdone

/-- Growth keeps the target and the size of a tile. -/
theorem tilesFor_eq {c d : Candidate} (h : c.GrowsTo d) : tilesFor d = tilesFor c := by
  rw [h.same]
  rfl

variable {g : Growth Ledger} {core : Core} {start : List Candidate} {l : Ledger}

/-- Growth towards targets on a core. Candidates that moved from where they started did not pass
their targets by more than a tile, and exhausted ones were refused all sizes that do not. -/
structure Aiming (g : Growth Ledger) (core : Core) (start : List Candidate) : Prop
    extends Steady g core where
  moved : List.Forall₂ (fun c d => c.GrowsTo d ∧
    (d.allocated = c.allocated ∨ d.allocated ≤ tilesFor c)) start g.cands
  blocked : ∀ c ∈ g.cands, c.exhausted = true →
    c.Blocked (tilesFor c) (g.model.available core).toNat

/-- An attempt exhausts a candidate that is blocked, or moves it close to its target. -/
theorem Aiming.attempt (h : g.Aiming core start) {i : Nat} {c : Candidate}
    (hc : g.cands[i]? = some c) (hactive : c.exhausted = false) :
    (g.settle i c (c.growToFirst (c.sizesUpTo (tilesFor c)) g.model)).Aiming core start := by
  have hcm := List.mem_of_getElem? hc
  have hcore := h.onCore c hcm
  subst hcore
  have hdescending : (c.sizesUpTo (tilesFor c)).Pairwise (· > ·) :=
    List.pairwise_reverse.2 ((h.ascending c hcm).filter _)
  have hlarger : ∀ t ∈ c.sizesUpTo (tilesFor c), c.allocated < t :=
    fun t ht => (Candidate.mem_sizesUpTo.1 ht).2.1
  rcases Candidate.growToFirst_cases h.room hdescending hlarger with
    ⟨hr, hall⟩ | ⟨t, l', hr, hpaid, hlt, _⟩
  · rw [hr]
    refine ⟨h.toSteady.settle hc le_rfl, ?_, fun d hd hexhausted => ?_⟩
    · exact forall₂_set h.moved hc fun b hb => ⟨hb.1.trans ⟨rfl, Or.inl rfl⟩, hb.2⟩
    · rcases List.mem_or_eq_of_mem_set hd with hd | rfl
      · exact h.blocked d hd hexhausted
      · exact fun s hs hlt hle => hall s (Candidate.mem_sizesUpTo.2 ⟨hs, hlt, hle⟩)
  · obtain ⟨hsize, _, hle⟩ := Candidate.mem_sizesUpTo.1 (Candidate.growToFirst_eq_some hr).1
    rw [hr]
    have hleft : (l'.available c.core).toNat ≤ (g.model.available c.core).toNat := by omega
    refine ⟨h.toSteady.settle hc hleft, ?_, fun d hd hexhausted => ?_⟩
    · refine forall₂_set h.moved hc fun b hb => ⟨hb.1.trans ⟨rfl, Or.inr ⟨hlt, hsize⟩⟩, Or.inr ?_⟩
      exact tilesFor_eq hb.1 ▸ hle
    · rcases List.mem_or_eq_of_mem_set hd with hd | rfl
      · exact (h.blocked d hd hexhausted).mono hleft
      · exact absurd (hactive.symm.trans hexhausted) Bool.false_ne_true

/-- Where growth towards targets leaves a candidate. -/
structure Lands (left : Nat) (c d : Candidate) : Prop where
  growsTo : c.GrowsTo d
  close : d.allocated = c.allocated ∨ d.allocated ≤ tilesFor c
  blocked : d.bytes < c.target → d.Blocked (tilesFor c) left

/-- A candidate that lands below its target was refused every size close to it. -/
theorem Lands.refused {left s : Nat} {c d : Candidate} (h : Lands left c d)
    (hbelow : d.allocated * c.tileBytes < c.target) (hs : s ∈ c.sizes) (hlt : d.allocated < s)
    (hle : s ≤ tilesFor c) : left < (s - d.allocated) * c.tileBytes := by
  have hsizes : d.sizes = c.sizes := by rw [h.growsTo.same]
  have htile : d.tileBytes = c.tileBytes := by rw [h.growsTo.same]
  have hshort : d.bytes < c.target := by
    rw [Candidate.bytes, htile]
    exact (Nat.min_le_left ..).trans_lt hbelow
  have hblocked := h.blocked hshort s (hsizes ▸ hs) hlt hle
  rwa [htile] at hblocked

/-- All candidates land. -/
theorem Fresh.towardsTargets_lands (h : Fresh core start l)
    (hdone : (towardsTargets ⟨start, l, []⟩).1 = .ok ()) :
    List.Forall₂ (Lands ((towardsTargets ⟨start, l, []⟩).2.model.available core).toNat) start
      (towardsTargets ⟨start, l, []⟩).2.cands := by
  have hfirst : (⟨start, l, []⟩ : Growth Ledger).Aiming core start := by
    refine ⟨h.settling.toSteady, List.forall₂_same.2 fun c _ => ⟨.refl c, Or.inl rfl⟩, ?_⟩
    intro c hc hexhausted
    exact absurd ((h.active c hc).symm.trans hexhausted) Bool.false_ne_true
  obtain ⟨hlast, hstopped⟩ := towardsTargets_invariant
    (P := fun g => g.Aiming core start) (fun _ _ _ h => h.attempt) hfirst hdone
  refine List.forall₂_iff_zip.2 ⟨hlast.moved.length_eq, fun {c d} hcd => ?_⟩
  obtain ⟨hgrows, hclose⟩ := (List.forall₂_iff_zip.1 hlast.moved).2 hcd
  refine ⟨hgrows, hclose, fun hbelow => ?_⟩
  have hdm := (List.of_mem_zip hcd).2
  have htarget : d.target = c.target := by rw [hgrows.same]
  rcases hstopped d hdm with hexhausted | hreached
  · exact tilesFor_eq hgrows ▸ hlast.blocked d hdm hexhausted
  · rw [deficit] at hreached
    omega

/-- Sharing out the spare bytes leaves the candidates as fresh as they were. -/
theorem Fresh.withTargets (h : Fresh core start l) (spare : UInt64) :
    Fresh core (withTargets spare start) l := by
  refine ⟨?_, ?_, ?_, h.room⟩ <;> intro d hd <;> obtain ⟨c, hc, rfl⟩ := List.mem_map.1 hd
  · exact h.onCore c hc
  · exact h.ascending c hc
  · exact h.active c hc

private theorem run_proportional {σ : Type} [ResourceModel σ] {cands : List Candidate}
    (h : 2 ≤ cands.length) (core : Core) (m : σ) : run .proportional core cands m =
      towardsTargets ⟨withTargets (ResourceModel.available m core) cands, m, []⟩ := by
  unfold run
  split
  · simp at h
  · rename_i hgreedy
    cases hgreedy
  · rfl

end Growth

end Relay

/-! ## The targets of the buffers -/

/-- The weight of a buffer when bytes are shared out: its granule, but at least `4`. -/
def Buffer.weight (b : Buffer) : Nat := max b.granule.toNat 4

namespace Epoch

variable {e e' : Epoch} {config : Config} {core : Core} {ids : List BufferId} {l l' m : Ledger}
  {cands : List Candidate}

/-- The bytes of a buffer and its share of those left on its core, in proportion to the weights of
all buffers of the core that may grow. -/
def byteTarget (e : Epoch) (config : Config) (l : Ledger) (b : Buffer) : Nat :=
  b.bytes + (l.available b.core).toNat * b.weight / total ((e.peers config b.core).map (·.weight))

/-- Counted in words, the target is the exact one, unless there is nothing to share out. -/
theorem clamped_target (hk : e.WellKeyed) (hl : l.Accounts e) {b : Buffer}
    (hb : b ∈ e.peers config core) {target : Nat}
    (h : target = min (min b.bytes maxWord64 + (l.available core).toNat * b.weight /
      total ((e.peers config core).map (·.weight))) maxWord64) :
    target = e.byteTarget config l b ∨
      target ≤ e.byteTarget config l b ∧ e.byteTarget config l b = b.bytes := by
  obtain ⟨hgrowing, rfl⟩ := mem_peers.1 hb
  have hshare : (l.available b.core).toNat * b.weight /
      total ((e.peers config b.core).map (·.weight)) ≤ (l.available b.core).toNat := by
    apply Nat.div_le_of_le_mul
    rw [Nat.mul_comm]
    exact Nat.mul_le_mul_right _ (le_total_of_mem _ hb)
  have hbytes := bytes_le_usedL1 (hk.get?_peer hb) (usesL1_of_mayGrow (mem_growing.1 hgrowing).2)
  have hcount := hl.allocated b.core
  have hleft := l.toNat_available b.core
  have hword := l.capacity.toNat_lt
  have hmax : maxWord64 = 2 ^ 64 - 1 := rfl
  rw [byteTarget]
  generalize (l.available b.core).toNat * b.weight /
    total ((e.peers config b.core).map (·.weight)) = share at h hshare ⊢
  omega

/-- The candidates of a turn weigh as much as the peers. -/
theorem Turn.total_weights (h : e.Turn config core ids cands m e' l') (hk : e.WellKeyed)
    (hperm : ids.Perm ((e.peers config core).map (·.id))) :
    total (cands.map fun c => max c.granule 4) =
      total ((e.peers config core).map (·.weight)) := by
  let weigh (id : BufferId) : Nat := ((e.buffers.get? id).map (·.weight)).getD 0
  have hcands : ids.map weigh = cands.map fun c => max c.granule 4 := by
    refine map_eq_map_of_forall₂ ((mapM_eq_ok.1 h.read).imp fun id c hread => ?_)
    obtain ⟨b, hb, _, rfl⟩ := candidate_eq_ok.1 hread
    simp only [weigh, hb]
    rfl
  have hpeers : (e.peers config core).map (·.weight) =
      ((e.peers config core).map (·.id)).map weigh := by
    rw [List.map_map]
    refine List.map_congr_left fun p hp => ?_
    simp only [Function.comp, weigh, hk.get?_peer hp]
    rfl
  rw [← hcands, hpeers]
  exact total_perm (hperm.map weigh)

/-- A peer of a shared core lands where growth towards the shared out bytes leaves it. Ids are keys,
so a candidate at the end is traced back to the buffer it was made from. -/
theorem Turn.lands (h : e.Turn config core ids cands m e' l') (hk : e.WellKeyed)
    (hperm : ids.Perm ((e.peers config core).map (·.id)))
    (hproportional : config.strategy = .proportional) (hmany : 2 ≤ ids.length)
    {b : Buffer} (hb : b ∈ e.peers config core) :
    ∃ target d, Growth.Lands (l'.available core).toNat
        { Candidate.ofBuffer config core b.id b with target } d ∧
      d.allocated = e'.tiles b.id ∧
      target = min (min b.bytes maxWord64 + (m.available core).toNat * b.weight /
        total ((e.peers config core).map (·.weight))) maxWord64 := by
  have hlength : 2 ≤ cands.length := (mapM_eq_ok.1 h.read).length_eq ▸ hmany
  have hids := h.ids
  have hdone := h.done
  have hshown := h.shown
  have hleft := h.left
  rw [hproportional, Growth.run_proportional hlength] at hids hdone hshown hleft
  have hlands := (h.fresh.withTargets _).towardsTargets_lands hdone
  rw [← hleft] at hlands
  have hid : b.id ∈ ids := hperm.mem_iff.2 (List.mem_map.2 ⟨b, hb, rfl⟩)
  obtain ⟨d, hd, hdid⟩ := List.mem_map.1 (hids ▸ hid)
  obtain ⟨_, haimed, hcd⟩ := exists_left_of_forall₂ hlands hd
  obtain ⟨c, hc, rfl⟩ := List.mem_map.1 haimed
  obtain ⟨p, hp, rfl⟩ := h.exists_start hk hperm hc
  obtain ⟨b', hb', hshow⟩ := hshown d hd
  have hpid : p.id = b.id := by
    rw [← hdid, hcd.growsTo.same]
    rfl
  have hpb : p = b := by
    have hget := hk.get?_peer hp
    rw [hpid, hk.get?_peer hb] at hget
    exact (Option.some.inj hget).symm
  subst hpb
  refine ⟨_, d, hcd, ?_, ?_⟩
  · rw [hshow.allocated, tiles_eq (hdid ▸ hb')]
  · rw [← h.total_weights hk hperm]
    rfl

/-- Proportional upsizing of a valid epoch succeeds. On a core with several buffers that may grow,
each of them aims at its bytes and its share of those left on the core. It stays where it is, or
moves up to a valid size that exceeds the target by at most one tile. If it ends below the target,
the bytes left pay for none of the larger valid sizes that exceed the target by at most one tile. -/
theorem upsize_proportionally (hk : e.WellKeyed) (hvalid : e.validate = .ok ())
    (hl : Ledger.ofEpoch e = .ok l) (hproportional : config.strategy = .proportional) :
    ∃ report e' l', e.upsize config l = (.ok report, e', l') ∧
      ∀ core, 2 ≤ (e.peers config core).length → ∀ b ∈ e.peers config core,
        (e'.tiles b.id = b.allocated.toNat ∨
          b.allocated.toNat < e'.tiles b.id ∧ e'.tiles b.id ∈ b.sizes config ∧
            e'.tiles b.id ≤ e.byteTarget config l b / b.tileBytes.toNat + 1 ∧
            e'.tiles b.id * b.tileBytes.toNat ≤ e.byteTarget config l b + b.tileBytes.toNat) ∧
        (e'.tiles b.id * b.tileBytes.toNat < e.byteTarget config l b →
          ∀ s ∈ b.sizes config, e'.tiles b.id < s →
            s ≤ e.byteTarget config l b / b.tileBytes.toNat + 1 →
            (l'.available core).toNat < (s - e'.tiles b.id) * b.tileBytes.toNat) := by
  have haccounts := Ledger.ofEpoch_accounts hl
  have hsound : ∀ b ∈ e.growing config, b.check = .ok () :=
    fun b hb => check_of_validate hvalid b (mem_growing.1 hb).1
  obtain ⟨report, ids', e', l', heq, hup, _⟩ := upsize_upsized config hk hsound haccounts
  refine ⟨report, e', l', heq, fun core hmany b hb => ?_⟩
  obtain ⟨hgrowing, rfl⟩ := mem_peers.1 hb
  obtain ⟨ids, cands, m, hperm, hstart, hturn⟩ :=
    exists_turn (hk.filed config) haccounts heq hgrowing
  have hcount : 2 ≤ ids.length := by
    rw [hperm.length_eq, List.length_map]
    exact hmany
  obtain ⟨target, d, hlands, htiles, htarget⟩ := hturn.lands hk hperm hproportional hcount hb
  rw [hstart] at htarget
  have haim := clamped_target hk haccounts hb htarget
  have hle : target ≤ e.byteTarget config l b := by omega
  refine ⟨?_, fun hbelow s hs hlt hlimit => ?_⟩
  · rcases hup.grows.tiles_cases hk hb with hstayed | ⟨hgrew, hsize⟩
    · exact Or.inl hstayed
    · have hclose : e'.tiles b.id ≤ e.byteTarget config l b / b.tileBytes.toNat + 1 := by
        have hmoved := hlands.close
        rw [htiles] at hmoved
        rcases hmoved with hsame | hmoved
        · exact absurd hsame.symm hgrew.ne
        · exact hmoved.trans (Nat.succ_le_succ (Nat.div_le_div_right hle))
      refine Or.inr ⟨hgrew, hsize, hclose, ?_⟩
      calc e'.tiles b.id * b.tileBytes.toNat
          ≤ (e.byteTarget config l b / b.tileBytes.toNat + 1) * b.tileBytes.toNat :=
            Nat.mul_le_mul_right _ hclose
        _ = e.byteTarget config l b / b.tileBytes.toNat * b.tileBytes.toNat + b.tileBytes.toNat :=
            Nat.succ_mul ..
        _ ≤ e.byteTarget config l b + b.tileBytes.toNat :=
            Nat.add_le_add_right (Nat.div_mul_le_self ..) _
  · rcases haim with haim | ⟨_, hnothing⟩
    · subst haim
      have hrefused := hlands.refused (s := s)
      rw [htiles] at hrefused
      exact hrefused hbelow hs hlt hlimit
    · rw [hnothing, Buffer.bytes] at hbelow
      have hshrunk : e'.tiles b.id < b.allocated.toNat := Nat.lt_of_mul_lt_mul_right hbelow
      rcases hup.grows.tiles_cases hk hb with hstayed | ⟨hgrew, _⟩ <;> omega

/-- Two buffers of ten byte tiles, with three more tiles to share. -/
def threeToShare : Epoch where
  index := 0
  device := { gridX := 4, gridY := 4, ethernet := [], l1Bytes := 70, reservedBytes := 0 }
  ops := .empty
  buffers := .ofList [
    (⟨1⟩, ⟨⟨1⟩, .relay, ⟨0, 1, 1⟩, none, none, 10, 1, 12, 2⟩),
    (⟨2⟩, ⟨⟨2⟩, .relay, ⟨0, 1, 1⟩, none, none, 10, 1, 12, 2⟩)]
  pipes := .empty

/-- Both aim at 35 bytes. The first one takes 4 tiles; the second one ends with 3, and no bytes are
left for a fourth. -/
theorem upsize_proportionally_threeToShare :
    ∃ config : Config, config.strategy = .proportional ∧
    threeToShare.WellKeyed ∧ threeToShare.validate = .ok () ∧
    2 ≤ (threeToShare.peers config ⟨0, 1, 1⟩).length ∧
    ∃ l, Ledger.ofEpoch threeToShare = .ok l ∧
      (∀ b ∈ threeToShare.peers config ⟨0, 1, 1⟩, threeToShare.byteTarget config l b = 35) ∧
      ∃ report e' l', threeToShare.upsize config l = (.ok report, e', l') ∧
        e'.tiles ⟨1⟩ = 4 ∧ e'.tiles ⟨1⟩ * 10 ≤ 35 + 10 ∧ e'.tiles ⟨2⟩ = 3 ∧
        (l'.available ⟨0, 1, 1⟩).toNat < (4 - e'.tiles ⟨2⟩) * 10 := by
  have hproportional : ({ strategy := .proportional } : Config).strategy = .proportional := rfl
  have hk : threeToShare.WellKeyed := by decide
  have hvalid : threeToShare.validate = .ok () := by decide
  have hmany : 2 ≤ (threeToShare.peers { strategy := .proportional } ⟨0, 1, 1⟩).length := by decide
  have hl : Ledger.ofEpoch threeToShare = .ok ⟨70, .ofList [(⟨0, 1, 1⟩, 40)]⟩ := by decide
  have haim : ∀ b ∈ threeToShare.peers { strategy := .proportional } ⟨0, 1, 1⟩,
      threeToShare.byteTarget { strategy := .proportional } ⟨70, .ofList [(⟨0, 1, 1⟩, 40)]⟩ b =
        35 := by decide
  have hfirst : (threeToShare.upsize { strategy := .proportional }
      (⟨70, .ofList [(⟨0, 1, 1⟩, 40)]⟩ : Ledger)).2.1.tiles ⟨1⟩ = 4 := by cbv
  have hsecond : (threeToShare.upsize { strategy := .proportional }
      (⟨70, .ofList [(⟨0, 1, 1⟩, 40)]⟩ : Ledger)).2.1.tiles ⟨2⟩ = 3 := by cbv
  have hsizes : validSizes 1 12 13000 = [2, 3, 4, 6, 12] := by cbv
  obtain ⟨report, e', l', heq, hlands⟩ := upsize_proportionally hk hvalid hl hproportional
  rw [heq] at hfirst hsecond
  have hb₁ : (⟨⟨1⟩, .relay, ⟨0, 1, 1⟩, none, none, 10, 1, 12, 2⟩ : Buffer) ∈
      threeToShare.peers { strategy := .proportional } ⟨0, 1, 1⟩ := by decide
  have hb₂ : (⟨⟨2⟩, .relay, ⟨0, 1, 1⟩, none, none, 10, 1, 12, 2⟩ : Buffer) ∈
      threeToShare.peers { strategy := .proportional } ⟨0, 1, 1⟩ := by decide
  have hover : e'.tiles ⟨1⟩ * 10 ≤ 35 + 10 := by
    rcases (hlands _ hmany _ hb₁).1 with hstayed | ⟨_, _, _, hbytes⟩
    · cases hfirst.symm.trans hstayed
    · rw [haim _ hb₁] at hbytes
      exact hbytes
  have hblocked := (hlands _ hmany _ hb₂).2
  rw [haim _ hb₂] at hblocked
  have hsize : 4 ∈ validSizes 1 12 13000 := by
    rw [hsizes]
    decide
  change e'.tiles ⟨2⟩ = 3 at hsecond
  refine ⟨_, hproportional, hk, hvalid, hmany, _, hl, haim, report, e', l', heq, hfirst, hover,
    hsecond, ?_⟩
  rw [hsecond] at hblocked ⊢
  exact hblocked (by decide) 4 hsize (by decide) (by decide)

end Epoch

end TorusRouting
