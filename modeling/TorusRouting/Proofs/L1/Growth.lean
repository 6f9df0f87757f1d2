import TorusRouting.Proofs.L1.Accounting
import TorusRouting.Proofs.Relay.Frame

/-!
# Growth against a ledger

Growth keeps a ledger that accounts for the epoch doing so, move by move. Against such a ledger it
never fails, because no target reaches the largest word.
-/

namespace TorusRouting

open Relay

/-! ## One granted move -/

/-- Bytes on a core after a stored L1 buffer has grown. -/
theorem Epoch.usedL1_grown {e : Epoch} {id : BufferId} {b : Buffer}
    (hb : e.buffers.get? id = some b) (hu : b.usesL1 = true) {tiles : UInt64}
    (hle : b.allocated.toNat ≤ tiles.toNat) (core : Core) :
    (e.setAllocated id tiles).usedL1 core = e.usedL1 core +
      if b.core = core then (tiles.toNat - b.allocated.toNat) * b.tileBytes.toNat else 0 := by
  have hsum := Epoch.usedL1_setAllocated hb tiles core
  have hu' : { b with allocated := tiles }.usesL1 = true := hu
  by_cases hcore : b.core = core
  · subst hcore
    have hnew : { b with allocated := tiles }.bytesOn b.core = tiles.toNat * b.tileBytes.toNat :=
      Buffer.bytesOn_self hu'
    have hsplit : tiles.toNat * b.tileBytes.toNat =
        b.bytes + (tiles.toNat - b.allocated.toNat) * b.tileBytes.toNat := by
      rw [Buffer.bytes, ← Nat.add_mul, Nat.add_sub_cancel' hle]
    rw [hnew, Buffer.bytesOn_self hu, hsplit] at hsum
    rw [if_pos rfl]
    omega
  · have hzero : b.bytesOn core = 0 := by simp [Buffer.bytesOn, hcore]
    have hzero' : { b with allocated := tiles }.bytesOn core = 0 := by
      simp [Buffer.bytesOn, hcore]
    rw [if_neg hcore]
    omega

namespace Ledger

/-- Paying for a move of a nonempty buffer keeps the accounts, and leaves its core within the
budget. -/
theorem Accounts.grant {l l' : Ledger} {e : Epoch} (h : l.Accounts e) {id : BufferId} {b : Buffer}
    (hb : e.buffers.get? id = some b) (hu : b.usesL1 = true) (hpos : 0 < b.bytes)
    {tiles : UInt64} (hlt : b.allocated < tiles)
    (hr : l.reserve b.core (clamp64 ((tiles.toNat - b.allocated.toNat) * b.tileBytes.toNat)) =
      (.ok (), l')) :
    l'.Accounts (e.setAllocated id tiles) ∧
      (e.setAllocated id tiles).usedL1 b.core ≤ e.device.l1Budget.toNat := by
  rw [UInt64.lt_iff_toNat_lt] at hlt
  have hgrown := Epoch.usedL1_grown hb hu hlt.le
  have hused : 0 < e.usedL1 b.core := hpos.trans_le (Epoch.bytes_le_usedL1 hb hu)
  have hcost : 0 < (tiles.toNat - b.allocated.toNat) * b.tileBytes.toNat :=
    Nat.mul_pos (by omega) (Nat.pos_of_mul_pos_left hpos)
  obtain ⟨hcapacity, hroom, hcount⟩ := h.reserve_exact hused hcost hr
  generalize (tiles.toNat - b.allocated.toNat) * b.tileBytes.toNat = cost at *
  have hword := l.capacity.toNat_lt
  have hmax : maxWord64 = 2 ^ 64 - 1 := rfl
  refine ⟨⟨hcapacity.trans h.capacity, fun core => ?_, fun core => ?_⟩, ?_⟩
  · rw [hcount, hgrown, h.allocated]
    by_cases hcore : b.core = core
    · subst hcore
      rw [if_pos rfl]
      omega
    · rw [if_neg hcore, Nat.add_zero, Nat.add_zero]
  · rw [hcount, hcapacity, h.allocated]
    by_cases hcore : b.core = core
    · subst hcore
      rw [if_pos rfl]
      omega
    · rw [if_neg hcore, Nat.add_zero, ← h.allocated]
      exact h.within core
  · rw [hgrown, if_pos rfl, ← h.capacity]
    exact hroom

end Ledger

namespace Relay

/-- Against a ledger, an attempt changes nothing, or pays for one move. -/
theorem Candidate.Attempt.ledger_cases {c : Candidate} {l : Ledger}
    {r : Option GrowthStep × Ledger} (h : c.Attempt l r) :
    r = (none, l) ∨ ∃ t l', t ∈ c.sizes ∧ c.allocated < t ∧
      l.reserve c.core (c.cost t) = (.ok (), l') ∧
      r = (some ⟨c.id, c.allocated, t, c.cost t⟩, l') := by
  induction h with
  | stop => exact Or.inl rfl
  | refused _ _ hr _ ih =>
    rw [Ledger.reserve_eq_error hr] at ih
    exact ih
  | granted ht ha hr => exact Or.inr ⟨_, _, ht, ha, hr, rfl⟩

end Relay

namespace Epoch

/-- The listed buffers are stored and occupy L1 of the core. -/
def Hosts (e : Epoch) (core : Core) (ids : List BufferId) : Prop :=
  ∀ id ∈ ids, ∃ b, e.buffers.get? id = some b ∧ b.usesL1 = true ∧ b.core = core ∧ 0 < b.bytes

/-- Buffers that have grown are where they were. -/
theorem Grows.hosts {e e' : Epoch} {config : Config} {ids ids' : List BufferId} {core : Core}
    (h : e.Grows config ids e') (hh : e.Hosts core ids') : e'.Hosts core ids' := by
  intro id hid
  obtain ⟨b, hb, hu, hcore, hpos⟩ := hh id hid
  obtain ⟨b', hb', hg⟩ := h.buffer id b hb
  have hbytes : b.bytes ≤ b'.bytes := by
    have htile : b'.tileBytes = b.tileBytes := by rw [hg.same]
    rw [Buffer.bytes, Buffer.bytes, htile]
    exact Nat.mul_le_mul_right _ hg.le
  refine ⟨b', hb', ?_, ?_, hpos.trans_le hbytes⟩
  · rw [hg.same]
    exact hu
  · rw [hg.same]
    exact hcore

end Epoch

/-! ## Histories of granted moves -/

namespace Relay.Growth

/-- Growth on a core against a ledger that was `l` at the start and accounts for the epoch. Once a
move was made, the core is within the budget exactly. -/
structure Accounted (g : Growth Ledger) (config : Config) (core : Core) (l : Ledger)
    (e : Epoch) : Prop where
  mirrors : g.Mirrors config e
  hosts : e.Hosts core (g.cands.map (·.id))
  onCore : ∀ c ∈ g.cands, c.core = core
  accounts : g.model.Accounts e
  elsewhere : ∀ k, core ≠ k → g.model.allocated k = l.allocated k
  within : g.log ≠ [] → e.usedL1 core ≤ e.device.l1Budget.toNat

variable {g g' : Growth Ledger} {config : Config} {core : Core} {l : Ledger} {e : Epoch}

/-- An attempt keeps the accounts. -/
theorem Accounted.attempt (h : g.Accounted config core l e) {i : Nat} {c : Candidate}
    {r : Option GrowthStep × Ledger} (hc : g.cands[i]? = some c) (hr : c.Attempt g.model r) :
    (g.settle i c r).Accounted config core l (e.replay r.1.toList) := by
  obtain ⟨hmirrors, hgrows⟩ := h.mirrors.attempt hc hr
  have hhosts : (e.replay r.1.toList).Hosts core ((g.settle i c r).cands.map (·.id)) := by
    rw [ids_settle hc]
    exact hgrows.hosts h.hosts
  have hcm : c ∈ g.cands := List.mem_of_getElem? hc
  have honCore : ∀ d ∈ (g.settle i c r).cands, d.core = core := by
    intro d hd
    rcases List.mem_or_eq_of_mem_set hd with hd | rfl
    · exact h.onCore d hd
    · cases r.1 <;> exact h.onCore c hcm
  rcases hr.ledger_cases with rfl | ⟨t, l', ht, hlt, hres, rfl⟩
  · refine ⟨hmirrors, hhosts, honCore, h.accounts, h.elsewhere, fun hlog => h.within ?_⟩
    simpa [settle] using hlog
  · obtain ⟨b, hb, hshow⟩ := h.mirrors.stored c hcm
    obtain ⟨b', hb', hu, hcore, hpos⟩ := h.hosts c.id (List.mem_map.2 ⟨c, hcm, rfl⟩)
    cases hb.symm.trans hb'
    obtain ⟨hword, hmove⟩ := hshow.word ht hlt
    have hpaid : g.model.reserve b.core
        (clamp64 (((UInt64.ofNat t).toNat - b.allocated.toNat) * b.tileBytes.toNat)) =
          (.ok (), l') := by
      rw [hword, ← hshow.allocated, ← hshow.tileBytes, hcore, ← h.onCore c hcm]
      exact hres
    obtain ⟨haccounts, hwithin⟩ := h.accounts.grant hb hu hpos hmove hpaid
    refine ⟨hmirrors, hhosts, honCore, haccounts, fun k hk => ?_, fun _ => hcore ▸ hwithin⟩
    obtain ⟨_, _, hcount⟩ := Ledger.reserve_eq_ok hpaid
    change l'.allocated k = _
    rw [hcount, hcore, if_neg hk]
    exact h.elsewhere k hk

/-- A whole history keeps the accounts. -/
theorem History.accounted (h : History g g') (hg : g.Accounted config core l (e.replay g.log)) :
    g'.Accounted config core l (e.replay g'.log) := by
  apply h.invariant (P := fun g => g.Accounted config core l (e.replay g.log)) hg
  intro g₁ i c r ih hc hr
  have hstep := ih.attempt hc hr
  rw [← Epoch.replay_append] at hstep
  exact hstep

/-! ## Moves paid exactly -/

variable {start : List Candidate}

/-- The cost of a granted move is exact, and so is the count after it. -/
theorem Accounted.cost_exact (h : g.Accounted config core l e) {c : Candidate} {t : Nat}
    {l' : Ledger} (hc : c ∈ g.cands) (hlt : c.allocated < t)
    (hr : g.model.reserve c.core (c.cost t) = (.ok (), l')) :
    (c.cost t).toNat = (t - c.allocated) * c.tileBytes ∧
      (l'.allocated core).toNat = (g.model.allocated core).toNat + (c.cost t).toNat := by
  obtain ⟨b, hb, hshow⟩ := h.mirrors.stored c hc
  obtain ⟨b', hb', hu, rfl, hpos⟩ := h.hosts c.id (List.mem_map.2 ⟨c, hc, rfl⟩)
  cases hb.symm.trans hb'
  have hused : 0 < e.usedL1 b.core := hpos.trans_le (Epoch.bytes_le_usedL1 hb hu)
  have htile : 0 < c.tileBytes := hshow.tileBytes ▸ Nat.pos_of_mul_pos_left hpos
  have hcost : 0 < (t - c.allocated) * c.tileBytes := Nat.mul_pos (by omega) htile
  rw [h.onCore c hc, Candidate.cost] at hr
  obtain ⟨_, hroom, hcount⟩ := h.accounts.reserve_exact hused hcost hr
  have hexact : (c.cost t).toNat = (t - c.allocated) * c.tileBytes := by
    have hword := g.model.capacity.toNat_lt
    have hmax : maxWord64 = 2 ^ 64 - 1 := rfl
    rw [Candidate.cost, toNat_clamp64]
    omega
  refine ⟨hexact, ?_⟩
  rw [hexact, hcount, if_pos rfl]

/-- Bytes that candidates hold, exactly. -/
def held (cands : List Candidate) : Nat := total (cands.map fun c => c.allocated * c.tileBytes)

/-- Every move was paid with the exact bytes it takes. The candidates hold them, and the ledger, `l`
at the start, counts them all. -/
structure Paid (g : Growth Ledger) (core : Core) (l : Ledger) (start : List Candidate) : Prop where
  moves : ∀ s ∈ g.log, ∃ c ∈ start, c.id = s.buffer ∧ c.allocated ≤ s.before ∧
    s.before < s.after ∧ s.bytes.toNat = (s.after - s.before) * c.tileBytes
  counted : (g.model.allocated core).toNat =
    (l.allocated core).toNat + total (g.log.map (·.bytes.toNat))
  gained : held g.cands = held start + total (g.log.map (·.bytes.toNat))

/-- An attempt pays exactly. -/
theorem Paid.attempt (h : g.Paid core l start) (hg : g.Accounted config core l e)
    (hstart : List.Forall₂ Candidate.GrowsTo start g.cands) {i : Nat} {c : Candidate}
    {r : Option GrowthStep × Ledger} (hc : g.cands[i]? = some c) (hr : c.Attempt g.model r) :
    (g.settle i c r).Paid core l start := by
  have hcm : c ∈ g.cands := List.mem_of_getElem? hc
  have hheld := total_map_set (fun c => c.allocated * c.tileBytes) (b := c.after r.1) hc
  have hgained := h.gained
  rw [held] at hgained
  rcases hr.ledger_cases with rfl | ⟨t, l', _, hlt, hres, rfl⟩
  · refine ⟨?_, ?_, ?_⟩ <;> simp only [settle, Option.toList_none, List.append_nil]
    · exact h.moves
    · exact h.counted
    · rw [held, ← hgained]
      exact Nat.add_right_cancel hheld
  · obtain ⟨hcost, hcount⟩ := hg.cost_exact hcm hlt hres
    refine ⟨?_, ?_, ?_⟩ <;> simp only [settle, Option.toList_some]
    · intro s hs
      rcases List.mem_append.1 hs with hs | hs
      · exact h.moves s hs
      · cases List.mem_singleton.1 hs
        obtain ⟨d, hd, hdc⟩ := exists_left_of_forall₂ hstart hcm
        have hid : d.id = c.id := by rw [hdc.same]
        have htile : c.tileBytes = d.tileBytes := by rw [hdc.same]
        exact ⟨d, hd, hid, hdc.le, hlt, htile ▸ hcost⟩
    · rw [List.map_append, total_append, hcount, h.counted]
      simp only [List.map_cons, List.map_nil, total_cons, total_nil]
      omega
    · have hmoved : t * c.tileBytes = c.allocated * c.tileBytes + (c.cost t).toNat := by
        rw [hcost, ← Nat.add_mul, Nat.add_sub_cancel' hlt.le]
      simp only [Candidate.after] at hheld
      rw [held, List.map_append, total_append]
      simp only [List.map_cons, List.map_nil, total_cons, total_nil, Candidate.after]
      omega

/-- A whole history pays exactly. -/
theorem History.paid {cands : List Candidate} (h : History ⟨cands, l, []⟩ g)
    (hstart : (⟨cands, l, []⟩ : Growth Ledger).Accounted config core l e) :
    g.Paid core l cands := by
  have hinvariant : g.Accounted config core l (e.replay g.log) ∧
      List.Forall₂ Candidate.GrowsTo cands g.cands ∧ g.Paid core l cands := by
    apply h.invariant (P := fun g => g.Accounted config core l (e.replay g.log) ∧
      List.Forall₂ Candidate.GrowsTo cands g.cands ∧ g.Paid core l cands)
    · exact ⟨hstart, List.forall₂_same.2 fun c _ => .refl c, List.forall_mem_nil _, rfl, rfl⟩
    · rintro g₁ i c r ⟨haccounted, hgrows, hpaid⟩ hc hr
      have hnext := haccounted.attempt hc hr
      rw [← Epoch.replay_append] at hnext
      exact ⟨hnext, forall₂_set hgrows hc fun b hb => hb.trans hr.growsTo,
        hpaid.attempt haccounted hgrows hc hr⟩
  exact hinvariant.2.2

/-- Targets play no part in what a move takes. -/
theorem Paid.of_aim {aim : Candidate → Nat}
    (h : g.Paid core l (start.map fun c => { c with target := aim c })) : g.Paid core l start where
  moves := by
    intro step hstep
    obtain ⟨d, hd, hmove⟩ := h.moves step hstep
    obtain ⟨c, hc, rfl⟩ := List.mem_map.1 hd
    exact ⟨c, hc, hmove⟩
  counted := h.counted
  gained := by
    rw [h.gained, held, List.map_map]
    rfl

/-! ## Targets stay below the largest word -/

/-- The candidate furthest from its target has not reached it. -/
theorem deficit_of_furthest {i j : Nat} {cands : List Candidate} {c : Candidate}
    (h : furthest i cands = some (j, c)) : 0 < deficit c := by
  induction cands generalizing i with
  | nil => cases h
  | cons d cands ih =>
    rw [furthest] at h
    split at h
    · exact ih h
    · rename_i hd
      have hd : 0 < deficit d := by
        simp only [Bool.or_eq_true, beq_iff_eq, not_or] at hd
        omega
      split at h
      · cases h
        exact hd
      · rename_i hr
        split at h
        · exact ih (hr.trans h)
        · cases h
          exact hd

/-- The candidate does not aim at the largest word, unless it is there already. -/
def Reachable (c : Candidate) : Prop :=
  0 < c.tileBytes ∧ (c.target < maxWord64 ∨ c.target ≤ c.bytes)

/-- The tiles a candidate lacks fit a word. -/
theorem Reachable.tilesFor_lt {c : Candidate} (h : Reachable c) (hd : 0 < deficit c) :
    tilesFor c < UInt64.size := by
  have hle : c.target / c.tileBytes ≤ c.target := Nat.div_le_self ..
  have hmax : UInt64.size = maxWord64 + 1 := rfl
  rw [deficit] at hd
  rw [tilesFor]
  rcases h.2 with h | h <;> omega

/-- A target stays within reach while the candidate grows. -/
theorem Reachable.growsTo {c d : Candidate} (h : Reachable c) (hg : c.GrowsTo d) :
    Reachable d := by
  have htarget : d.target = c.target := by rw [hg.same]
  have htile : d.tileBytes = c.tileBytes := by rw [hg.same]
  have hbytes : c.bytes ≤ d.bytes := by
    have hmul := Nat.mul_le_mul_right c.tileBytes hg.le
    rw [Candidate.bytes, Candidate.bytes, htile]
    omega
  refine ⟨htile ▸ h.1, ?_⟩
  rw [htarget]
  exact h.2.imp id fun h => h.trans hbytes

/-- Growth towards reachable targets does not fail. -/
theorem towardsTargets_ok {σ : Type} [ResourceModel σ] (g : Growth σ)
    (h : ∀ c ∈ g.cands, Reachable c) : (towardsTargets g).1 = .ok () := by
  fun_induction towardsTargets g with
  | case1 => rfl
  | case2 g i c hf hlt ih =>
    obtain ⟨k, hk, hc, _⟩ := furthest_eq_some hf
    have hcm : c ∈ g.cands := List.mem_of_getElem? hc
    refine ih fun d hd => ?_
    rcases List.mem_or_eq_of_mem_set hd with hd | rfl
    · exact h d hd
    · refine (h c hcm).growsTo (Candidate.growToFirst_attempt (fun t ht => ?_) g.model).growsTo
      exact (Candidate.mem_sizesUpTo.1 ht).1
  | case3 g i c hf hge =>
    obtain ⟨k, _, hc, _⟩ := furthest_eq_some hf
    exact absurd ((h c (List.mem_of_getElem? hc)).tilesFor_lt (deficit_of_furthest hf)) hge

/-- Nothing weighs as much as a list of several weights. -/
private theorem lt_total_of_mem {w : Candidate → Nat} (hw : ∀ c, 0 < w c) {l : List Candidate}
    {c : Candidate} (h : c ∈ l) (hl : ∀ d, l ≠ [d]) : w c < total (l.map w) := by
  cases l with
  | nil => cases h
  | cons a l =>
    rw [List.map_cons, total_cons]
    rcases List.mem_cons.1 h with rfl | h
    · cases l with
      | nil => exact absurd rfl (hl c)
      | cons b l =>
        have hb := hw b
        rw [List.map_cons, total_cons]
        omega
    · have hc := le_total_of_mem w h
      have ha := hw a
      omega

/-- Sharing out the spare bytes of a core aims below the largest word: a share is less than the
spare bytes, and these are left by a budget that already counts the candidate. -/
theorem withTargets_reachable {cands : List Candidate} {l : Ledger} (hl : ∀ c, cands ≠ [c])
    (hc : ∀ c ∈ cands, 0 < c.tileBytes ∧ c.bytes ≤ (l.allocated core).toNat)
    (hw : (l.allocated core).toNat ≤ l.capacity.toNat) :
    ∀ d ∈ withTargets (l.available core) cands, Reachable d := by
  intro d hd
  obtain ⟨c, hcm, rfl⟩ := List.mem_map.1 hd
  obtain ⟨htile, hbytes⟩ := hc c hcm
  refine ⟨htile, ?_⟩
  have hweight : max c.granule 4 < total (cands.map fun c => max c.granule 4) :=
    lt_total_of_mem (w := fun c => max c.granule 4) (fun c => by omega) hcm hl
  have hleft := l.toNat_available core
  have hword := l.capacity.toNat_lt
  have hmax : maxWord64 = 2 ^ 64 - 1 := rfl
  change min (c.bytes + _) _ < _ ∨ min (c.bytes + _) _ ≤ c.bytes
  beta_reduce
  rcases Nat.eq_zero_or_pos (l.available core).toNat with hzero | hpos
  · rw [hzero, Nat.zero_mul, Nat.zero_div]
    exact Or.inr (Nat.min_le_left ..)
  · left
    have hshare : (l.available core).toNat * max c.granule 4 /
        total (cands.map fun c => max c.granule 4) < (l.available core).toNat := by
      apply Nat.div_lt_of_lt_mul
      rw [Nat.mul_comm]
      exact Nat.mul_lt_mul_of_pos_right hweight hpos
    omega

/-- Candidates that a ledger accounts for grow without failing. -/
theorem run_ok {cands : List Candidate} (strategy : UpsizeStrategy)
    (hc : ∀ c ∈ cands, 0 < c.tileBytes ∧ c.bytes ≤ (l.allocated core).toNat)
    (hw : (l.allocated core).toNat ≤ l.capacity.toNat) :
    (run strategy core cands l).1 = .ok () := by
  unfold run
  split
  · rfl
  · rfl
  · rename_i hne
    exact towardsTargets_ok _ (withTargets_reachable (fun c h => hne c h) hc hw)

end Relay.Growth

end TorusRouting
