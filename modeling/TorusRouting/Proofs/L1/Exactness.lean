import Mathlib.Algebra.Group.Nat.Defs
import Mathlib.Data.List.Perm.Subperm
import TorusRouting.Proofs.L1.Proportion

/-!
# Exact arithmetic at the limits

Growth counts in words: costs and targets stop at the largest one, and sums that would pass it are
faults. Against a ledger made from the epoch none of this shows. Every candidate already holds a
byte that the ledger counts, so what is left on its core is less than the largest word. A cost that
was stopped there is refused, and a target that was stopped there is never picked.
-/

namespace TorusRouting

open Relay

namespace Relay

namespace Growth

/-! ## Candidates that are picked -/

/-- Growth towards targets picks the candidate at some point. -/
inductive Picks {σ : Type} [ResourceModel σ] : Growth σ → Candidate → Prop
  | now {g : Growth σ} {i : Nat} {c : Candidate} (h : furthest 0 g.cands = some (i, c)) :
      Picks g c
  | later {g : Growth σ} {i : Nat} {c d : Candidate} (h : furthest 0 g.cands = some (i, c))
      (hfits : tilesFor c < UInt64.size)
      (hd : Picks (g.settle i c (c.growToFirst (c.sizesUpTo (tilesFor c)) g.model)) d) : Picks g d

/-- A candidate that is picked is below its target, and has grown from one at the start. -/
theorem Picks.exists_start {σ : Type} [ResourceModel σ] {g : Growth σ} {d : Candidate}
    (h : Picks g d) : 0 < deficit d ∧ ∃ c ∈ g.cands, c.GrowsTo d := by
  induction h with
  | @now g i c hf =>
    obtain ⟨k, _, hc, _⟩ := furthest_eq_some hf
    exact ⟨deficit_of_furthest hf, c, List.mem_of_getElem? hc, .refl c⟩
  | @later g i c d hf _ _ ih =>
    obtain ⟨hdeficit, b, hb, hbd⟩ := ih
    obtain ⟨k, _, hc, _⟩ := furthest_eq_some hf
    refine ⟨hdeficit, ?_⟩
    rcases List.mem_or_eq_of_mem_set hb with hb | rfl
    · exact ⟨b, hb, hbd⟩
    · have hsizes : ∀ t ∈ c.sizesUpTo (tilesFor c), t ∈ c.sizes :=
        fun t ht => (Candidate.mem_sizesUpTo.1 ht).1
      have hgrows := (Candidate.growToFirst_attempt hsizes g.model).growsTo
      exact ⟨c, List.mem_of_getElem? hc, hgrows.trans hbd⟩

end Growth

/-! ## What growth starts from on each core -/

/-- The candidates of a core and the resource model, before growth on the core. -/
structure Start (σ : Type) where
  core : Core
  cands : List Candidate
  model : σ

/-- What growth on the core ends with. -/
def Start.grown {σ : Type} [ResourceModel σ] (s : Start σ) (strategy : UpsizeStrategy) : Growth σ :=
  (Growth.run strategy s.core s.cands s.model).2

/-- Weight of a candidate when bytes are shared out. -/
def Candidate.weight (c : Candidate) : Nat := max c.granule 4

/-- Weight of all candidates of the core. -/
def Start.weights {σ : Type} (s : Start σ) : Nat := total (s.cands.map (·.weight))

/-- Bytes to share out on the core. -/
def Start.spare {σ : Type} [ResourceModel σ] (s : Start σ) : Nat :=
  (ResourceModel.available s.model s.core).toNat

/-- Growth towards targets on the core picks the candidate at some point. -/
def Start.Picks {σ : Type} [ResourceModel σ] (s : Start σ) (c : Candidate) : Prop :=
  Growth.Picks ⟨Growth.withTargets (ResourceModel.available s.model s.core) s.cands, s.model, []⟩ c

end Relay

namespace Epoch

/-- What growth starts from on the listed cores, one after the other, up to the first failure. -/
def starts {σ : Type} [ResourceModel σ] (config : Config) :
    List (Core × List BufferId) → Epoch → σ → List (Start σ)
  | [], _, _ => []
  | (core, ids) :: groups, e, m =>
    match ids.mapM (e.candidate config core) with
    | .error _ => []
    | .ok cands =>
      ⟨core, cands, m⟩ ::
        match e.upsizeCore config core ids m with
        | (.error _, _, _) => []
        | (.ok _, e, m) => starts config groups e m

/-- The epoch is left with the moves made from these starts, whatever the outcome. -/
theorem upsizeCores_eq_replay {σ : Type} [ResourceModel σ] (config : Config)
    (groups : List (Core × List BufferId)) (r : UpsizeReport) (e : Epoch) (m : σ) :
    (upsizeCores config groups r e m).2.1 =
      e.replay ((starts config groups e m).flatMap fun s => (s.grown config.strategy).log) := by
  induction groups generalizing r e m with
  | nil => rfl
  | cons group groups ih =>
    obtain ⟨core, ids⟩ := group
    rw [upsizeCores, starts]
    cases hc : ids.mapM (e.candidate config core) with
    | error f =>
      rw [upsizeCore, hc]
      rfl
    | ok cands =>
      have hepoch : (e.upsizeCore config core ids m).2.1 =
          e.replay ((⟨core, cands, m⟩ : Start σ).grown config.strategy).log := by
        rw [upsizeCore, hc]
        rfl
      simp only [List.flatMap_cons, replay_append]
      rw [← hepoch]
      generalize e.upsizeCore config core ids m = result
      obtain ⟨rows, e₁, m₁⟩ := result
      cases rows with
      | error f => rfl
      | ok rows => exact ih _ e₁ m₁

variable {e : Epoch} {config : Config} {l : Ledger}

/-- Growth starts from the listed buffers of a core as `e` stores them and with the bytes that `l`
has left there. It runs against a ledger that accounts for some epoch with these buffers. -/
structure Begins (e : Epoch) (config : Config) (l : Ledger) (s : Start Ledger)
    (ids : List BufferId) (e₁ : Epoch) : Prop where
  nodup : ids.Nodup
  hosts : e₁.Hosts s.core ids
  accounts : s.model.Accounts e₁
  read : ids.mapM (e₁.candidate config s.core) = .ok s.cands
  same : ∀ id ∈ ids, e₁.buffers.get? id = e.buffers.get? id
  left : s.model.available s.core = l.available s.core

/-- Growth begins on the listed cores only. The cores before one change neither its buffers nor its
part of the ledger. -/
theorem begins_of_mem_starts {groups : List (Core × List BufferId)}
    (hids : (groups.flatMap (·.2)).Nodup) (hcores : (groups.map (·.1)).Nodup)
    (hh : ∀ g ∈ groups, e.Hosts g.1 g.2) (hl : l.Accounts e) {s : Start Ledger}
    (hs : s ∈ starts config groups e l) :
    ∃ ids e₁, (s.core, ids) ∈ groups ∧ e.Begins config l s ids e₁ := by
  induction groups generalizing e l with
  | nil => cases hs
  | cons group groups ih =>
    obtain ⟨core, ids⟩ := group
    rw [List.flatMap_cons, List.nodup_append] at hids
    rw [List.map_cons, List.nodup_cons] at hcores
    rw [List.forall_mem_cons] at hh
    obtain ⟨hhere, hrest, hdisjoint⟩ := hids
    obtain ⟨cands, hc, _, _⟩ := exists_candidates config hhere hh.1 hl
    obtain ⟨rows, e₁, l₁, heq, hup, _, helse⟩ := upsizeCore_upsized config hhere hh.1 hl
    rw [starts, hc, heq] at hs
    rcases List.mem_cons.1 hs with rfl | hs
    · exact ⟨ids, e, List.mem_cons_self .., hhere, hh.1, hl, hc, fun _ _ => rfl, rfl⟩
    · obtain ⟨ids', e₂, hgroup, hbegins⟩ :=
        ih hrest hcores.2 (fun g hg => hup.grows.hosts (hh.2 g hg)) hup.accounts hs
      refine ⟨ids', e₂, List.mem_cons_of_mem _ hgroup, { hbegins with same := ?_, left := ?_ }⟩
      · intro id hid
        rw [hbegins.same id hid]
        refine hup.grows.untouched id fun hm => ?_
        exact hdisjoint id hm id (List.mem_flatMap.2 ⟨_, hgroup, hid⟩) rfl
      · have hcore : core ≠ s.core := fun h => hcores.1 (h ▸ List.mem_map.2 ⟨_, hgroup, rfl⟩)
        rw [hbegins.left, Ledger.available, Ledger.available, helse s.core hcore,
          hup.accounts.capacity, hup.grows.device, hl.capacity]

namespace Begins

variable {s : Start Ledger} {ids : List BufferId} {e₁ : Epoch}

/-- The candidates at the start are the peers. -/
theorem exists_peer (h : e.Begins config l s ids e₁) (hk : e.WellKeyed)
    (hperm : ids.Perm ((e.peers config s.core).map (·.id))) {c : Candidate} (hc : c ∈ s.cands) :
    ∃ b ∈ e.peers config s.core, c = .ofBuffer config s.core b.id b := by
  obtain ⟨id, hid, hread⟩ := exists_left_of_forall₂ (mapM_eq_ok.1 h.read) hc
  obtain ⟨b, hb, _, rfl⟩ := candidate_eq_ok.1 hread
  obtain ⟨p, hp, rfl⟩ := List.mem_map.1 (hperm.mem_iff.1 hid)
  rw [h.same _ hid, hk.get?_peer hp] at hb
  cases hb
  exact ⟨b, hp, rfl⟩

/-- The candidates weigh as much as the peers. -/
theorem weights_eq (h : e.Begins config l s ids e₁) (hk : e.WellKeyed)
    (hperm : ids.Perm ((e.peers config s.core).map (·.id))) :
    s.weights = total ((e.peers config s.core).map (·.weight)) := by
  let weigh (id : BufferId) : Nat := ((e.buffers.get? id).map (·.weight)).getD 0
  have hcands : ids.map weigh = s.cands.map (·.weight) := by
    refine map_eq_map_of_forall₂ (List.forall₂_iff_zip.2 ⟨(mapM_eq_ok.1 h.read).length_eq, ?_⟩)
    intro id c hzip
    have hread := (List.forall₂_iff_zip.1 (mapM_eq_ok.1 h.read)).2 hzip
    obtain ⟨b, hb, _, rfl⟩ := candidate_eq_ok.1 hread
    rw [h.same id (List.of_mem_zip hzip).1] at hb
    simp only [weigh, hb]
    rfl
  have hpeers : (e.peers config s.core).map (·.weight) =
      ((e.peers config s.core).map (·.id)).map weigh := by
    rw [List.map_map]
    refine List.map_congr_left fun p hp => ?_
    simp only [Function.comp, weigh, hk.get?_peer hp]
    rfl
  rw [Start.weights, ← hcands, hpeers]
  exact total_perm (hperm.map weigh)

/-- What is charged on the core is at least what each candidate holds. -/
theorem charged (h : e.Begins config l s ids e₁) :
    ∀ c ∈ s.cands, 0 < c.tileBytes ∧ c.bytes ≤ (s.model.allocated s.core).toNat := by
  obtain ⟨cands, hc, hcharged, _⟩ := exists_candidates config h.nodup h.hosts h.accounts
  cases hc.symm.trans h.read
  exact hcharged

/-- Growth from here pays exactly. -/
theorem paid (h : e.Begins config l s ids e₁) :
    (s.grown config.strategy).Paid s.core s.model s.cands := by
  obtain ⟨cands, hc, _, haccounted⟩ := exists_candidates config h.nodup h.hosts h.accounts
  cases hc.symm.trans h.read
  obtain ⟨aim, hist⟩ := Growth.run_history config.strategy s.core s.cands s.model
  exact (hist.paid (haccounted aim)).of_aim

end Begins

end Epoch

/-! ## Wide words -/

namespace Relay

/-- There are no more distinct ids than words. -/
theorem length_ids_le {ids : List BufferId} (h : ids.Nodup) : ids.length ≤ 2 ^ 64 := by
  have hinj : Function.Injective fun id : BufferId => id.val.toNat := by
    intro a b hab
    cases a
    cases b
    exact congrArg BufferId.mk (UInt64.toNat_inj.1 hab)
  have hsub : ids.map (fun id : BufferId => id.val.toNat) ⊆ List.range (2 ^ 64) := by
    intro n hn
    obtain ⟨id, _, rfl⟩ := List.mem_map.1 hn
    exact List.mem_range.2 id.val.toNat_lt
  have hle := (List.subperm_of_subset (h.map hinj) hsub).length_le
  rwa [List.length_map, List.length_range] at hle

end Relay

namespace Epoch

variable {e : Epoch} {config : Config} {l : Ledger}

/-- Growth on a core at its limits. The bytes paid for a move are the product of its tiles and their
size, and the ledger counts them all. The products and sums of weights fit double words, and every
share fits a word. If candidates compete for targets, each one that is picked aims at the exact sum
of its bytes and its share, and the tiles in reach fit a word. -/
structure GrowsExactly (e : Epoch) (config : Config) (l : Ledger) (s : Start Ledger) : Prop where
  moves : ∀ step ∈ (s.grown config.strategy).log, ∃ b ∈ e.peers config s.core,
    b.id = step.buffer ∧ b.allocated.toNat ≤ step.before ∧ step.before < step.after ∧
      step.bytes.toNat = (step.after - step.before) * b.tileBytes.toNat
  counted : ((s.grown config.strategy).model.allocated s.core).toNat =
    (s.model.allocated s.core).toNat + total ((s.grown config.strategy).log.map (·.bytes.toNat))
  shares : s.weights < 2 ^ 128 ∧ ∀ c ∈ s.cands, s.spare * c.weight < 2 ^ 128 ∧
    s.spare * c.weight / s.weights < 2 ^ 64
  targets : 2 ≤ s.cands.length → ∀ c, s.Picks c → ∃ b ∈ e.peers config s.core,
    b.id = c.id ∧ c.target = e.byteTarget config l b ∧ c.target / b.tileBytes.toNat + 1 < 2 ^ 64

namespace Begins

variable {s : Start Ledger} {ids : List BufferId} {e₁ : Epoch}

/-- A weight is a word. -/
theorem weight_lt (h : e.Begins config l s ids e₁) {c : Candidate} (hc : c ∈ s.cands) :
    c.weight < 2 ^ 64 := by
  obtain ⟨id, _, hread⟩ := exists_left_of_forall₂ (mapM_eq_ok.1 h.read) hc
  obtain ⟨b, _, _, rfl⟩ := candidate_eq_ok.1 hread
  have hword := b.granule.toNat_lt
  change max b.granule.toNat 4 < _
  omega

private theorem weights_lt (h : e.Begins config l s ids e₁) : s.weights < 2 ^ 128 := by
  have hlength : s.cands.length ≤ 2 ^ 64 := by
    rw [← (mapM_eq_ok.1 h.read).length_eq]
    exact length_ids_le h.nodup
  calc s.weights
      ≤ s.cands.length * (2 ^ 64 - 1) :=
        total_map_le fun c hc => Nat.le_sub_one_of_lt (h.weight_lt hc)
    _ ≤ 2 ^ 64 * (2 ^ 64 - 1) := Nat.mul_le_mul_right _ hlength
    _ < 2 ^ 128 := by decide

/-- A share is no more than what is shared out. -/
theorem share_lt (h : e.Begins config l s ids e₁) {c : Candidate} (hc : c ∈ s.cands) :
    s.spare * c.weight < 2 ^ 128 ∧ s.spare * c.weight / s.weights < 2 ^ 64 := by
  have hspare : s.spare < 2 ^ 64 := UInt64.toNat_lt _
  constructor
  · calc s.spare * c.weight
        < 2 ^ 64 * 2 ^ 64 := Nat.mul_lt_mul'' hspare (h.weight_lt hc)
      _ = 2 ^ 128 := by decide
  · refine Nat.lt_of_le_of_lt (Nat.div_le_of_le_mul ?_) hspare
    rw [Nat.mul_comm]
    exact Nat.mul_le_mul_right _ (le_total_of_mem _ hc)

/-- A candidate that is picked aims at the exact sum. Where the sum is stopped at the largest word
nothing is left to share out, and then nobody is below a target. -/
theorem target_of_picks (h : e.Begins config l s ids e₁) (hk : e.WellKeyed) (hl : l.Accounts e)
    (hperm : ids.Perm ((e.peers config s.core).map (·.id))) (hmany : 2 ≤ s.cands.length)
    {d : Candidate} (hd : s.Picks d) : ∃ b ∈ e.peers config s.core, b.id = d.id ∧
      d.target = e.byteTarget config l b ∧ d.target / b.tileBytes.toNat + 1 < 2 ^ 64 := by
  obtain ⟨hdeficit, c', hc', hgrows⟩ := hd.exists_start
  have hlone : ∀ c, s.cands ≠ [c] := by
    intro c hc
    rw [hc, List.length_singleton] at hmany
    exact absurd hmany (by decide)
  have hreach := Growth.withTargets_reachable hlone h.charged (h.accounts.within s.core) c' hc'
  have hfits := (hreach.growsTo hgrows).tilesFor_lt hdeficit
  obtain ⟨c, hc, rfl⟩ := List.mem_map.1 hc'
  obtain ⟨b, hb, rfl⟩ := h.exists_peer hk hperm hc
  have hid : b.id = d.id := by rw [hgrows.same]; rfl
  have htile : d.tileBytes = b.tileBytes.toNat := by rw [hgrows.same]; rfl
  have htarget : d.target = min (min b.bytes maxWord64 + (l.available s.core).toNat * b.weight /
      total ((e.peers config s.core).map (·.weight))) maxWord64 := by
    rw [hgrows.same, ← h.left, ← h.weights_eq hk hperm]
    rfl
  refine ⟨b, hb, hid, ?_, ?_⟩
  · rcases clamped_target hk hl hb htarget with hexact | ⟨hle, hnothing⟩
    · exact hexact
    · have hkept : b.bytes ≤ d.allocated * d.tileBytes := by
        rw [htile]
        exact Nat.mul_le_mul_right _ hgrows.le
      rw [Growth.deficit, Candidate.bytes] at hdeficit
      omega
  · rw [Growth.tilesFor, htile] at hfits
    exact hfits

private theorem growsExactly (h : e.Begins config l s ids e₁) (hk : e.WellKeyed) (hl : l.Accounts e)
    (hperm : ids.Perm ((e.peers config s.core).map (·.id))) : e.GrowsExactly config l s where
  moves := by
    intro step hstep
    obtain ⟨c, hc, hid, hmove⟩ := h.paid.moves step hstep
    obtain ⟨b, hb, rfl⟩ := h.exists_peer hk hperm hc
    exact ⟨b, hb, hid, hmove⟩
  counted := h.paid.counted
  shares := ⟨h.weights_lt, fun _ hc => h.share_lt hc⟩
  targets := fun hmany _ hd => h.target_of_picks hk hl hperm hmany hd

end Begins

/-! ## The report -/

/-- The bytes reported for the buffers of a core fit a word. -/
theorem upsizeCore_rows_fit {σ : Type} [ResourceModel σ] {core : Core} {ids : List BufferId}
    {rows : List BufferUpsize} {m m' : σ} {e' : Epoch}
    (h : e.upsizeCore config core ids m = (.ok rows, e', m')) :
    ∀ row ∈ rows, row.bytesAdded < 2 ^ 64 := by
  unfold upsizeCore at h
  split at h
  · cases h
  · obtain ⟨_, _, hrows⟩ := bind_eq_ok.1 (congrArg Prod.fst h)
    intro row hrow
    obtain ⟨p, _, hmade⟩ := exists_left_of_forall₂ (mapM_eq_ok.1 hrows) hrow
    obtain ⟨hfits, rfl⟩ := upsizeRow_eq_ok.1 hmade
    exact hfits

private theorem upsizeCores_rows_fit {σ : Type} [ResourceModel σ]
    {groups : List (Core × List BufferId)}
    {r r' : UpsizeReport} {m m' : σ} {e' : Epoch}
    (h : upsizeCores config groups r e m = (.ok r', e', m'))
    (hr : ∀ row ∈ r.buffers, row.bytesAdded < 2 ^ 64) :
    ∀ row ∈ r'.buffers, row.bytesAdded < 2 ^ 64 := by
  induction groups generalizing r e m with
  | nil =>
    cases h
    exact hr
  | cons group groups ih =>
    rw [upsizeCores] at h
    split at h
    · cases h
    · rename_i hcore
      exact ih h (List.forall_mem_append.2 ⟨hr, upsizeCore_rows_fit hcore⟩)

/-- Upsizing of a valid epoch against its own ledger is exact at the limits. It succeeds, its rows
tell what was added with no more bytes than fit a word, and on every core growth is exact. The epoch
is left with the moves made on these cores and no others. -/
theorem upsize_exact_at_limits (hk : e.WellKeyed) (hvalid : e.validate = .ok ())
    (hl : Ledger.ofEpoch e = .ok l) (config : Config) :
    ∃ groups report e' l', e.relayBuffers config = .ok groups ∧
      e.upsize config l = (.ok report, e', l') ∧
      (∀ row ∈ report.buffers, row.Describes e e' ∧ row.bytesAdded < 2 ^ 64) ∧
      e' = e.replay ((starts config groups e l).flatMap fun s => (s.grown config.strategy).log) ∧
      ∀ s ∈ starts config groups e l, e.GrowsExactly config l s := by
  have haccounts := Ledger.ofEpoch_accounts hl
  have hfiled := hk.filed config
  have hsound : ∀ b ∈ e.growing config, b.check = .ok () :=
    fun b hb => check_of_validate hvalid b (mem_growing.1 hb).1
  obtain ⟨groups, hgroups⟩ := exists_relayBuffers hfiled hsound
  have hg := relayBuffers_grouping hgroups
  obtain ⟨report, _, e', l', heq, hup, _⟩ := upsize_upsized config hk hsound haccounts
  have hcores : upsizeCores config groups {} e l = (.ok report, e', l') := by
    rw [upsize, hgroups] at heq
    exact heq
  refine ⟨groups, report, e', l', hgroups, heq, fun row hrow => ⟨hup.describes row hrow, ?_⟩, ?_,
    fun s hs => ?_⟩
  · exact upsizeCores_rows_fit hcores (List.forall_mem_nil _) row hrow
  · rw [← upsizeCores_eq_replay config groups {} e l, hcores]
  · obtain ⟨ids, e₁, hgroup, hbegins⟩ :=
      begins_of_mem_starts (hg.nodup_ids hfiled) hg.cores (hg.hosts hfiled) haccounts hs
    exact hbegins.growsExactly hk haccounts (hg.ids _ hgroup)

/-- Two buffers with tiles of `2 ^ 61` bytes, on a core with the largest budget there is. -/
def oneByteShort : Epoch where
  index := 0
  device := { gridX := 4, gridY := 4, ethernet := [], l1Bytes := 18446744073709551615,
              reservedBytes := 0 }
  ops := .empty
  buffers := .ofList [
    (⟨1⟩, ⟨⟨1⟩, .relay, ⟨0, 1, 1⟩, none, none, 2305843009213693952, 1, 4, 1⟩),
    (⟨2⟩, ⟨⟨2⟩, .relay, ⟨0, 1, 1⟩, none, none, 2305843009213693952, 1, 4, 1⟩)]
  pipes := .empty

/-- Spare bytes are shared out, and the latency to hide takes the largest word. -/
def farProducers : Config where
  strategy := .proportional
  minLatencyCycles := 4294967296
  incomingBytesPerCycle := 4294967296

/-- Both buffers aim at `2 ^ 63 - 1` bytes. The first one takes 4 tiles; the second one ends with 2,
and for two more `2 ^ 62 - 1` bytes are left. -/
theorem upsize_exact_at_limits_oneByteShort :
    oneByteShort.WellKeyed ∧ oneByteShort.validate = .ok () ∧
    ∃ l, Ledger.ofEpoch oneByteShort = .ok l ∧
    ∃ groups report e' l', oneByteShort.relayBuffers farProducers = .ok groups ∧
      oneByteShort.upsize farProducers l = (.ok report, e', l') ∧
      report.buffers.map (·.bytesAdded) = [3 * 2 ^ 61, 2 ^ 61] ∧
      (∀ row ∈ report.buffers, row.bytesAdded < 2 ^ 64) ∧
      report.available = [(⟨0, 1, 1⟩, 4611686018427387903)] ∧
      ∃ s ∈ starts farProducers groups oneByteShort l,
        oneByteShort.GrowsExactly farProducers l s ∧ 2 ≤ s.cands.length ∧
        ∃ c, s.Picks c ∧ c.target = 2 ^ 63 - 1 ∧ c.target / 2 ^ 61 + 1 < 2 ^ 64 := by
  have hk : oneByteShort.WellKeyed := by decide
  have hvalid : oneByteShort.validate = .ok () := by decide
  have hl : Ledger.ofEpoch oneByteShort =
      .ok ⟨18446744073709551615, .ofList [(⟨0, 1, 1⟩, 4611686018427387904)]⟩ := by decide
  have hgroups : oneByteShort.relayBuffers farProducers = .ok [(⟨0, 1, 1⟩, [⟨1⟩, ⟨2⟩])] := by
    decide
  have hcands : [⟨1⟩, ⟨2⟩].mapM (oneByteShort.candidate farProducers ⟨0, 1, 1⟩) =
      .ok [⟨⟨1⟩, ⟨0, 1, 1⟩, [2, 4], 2305843009213693952, 1, 1, 0, false⟩,
        ⟨⟨2⟩, ⟨0, 1, 1⟩, [2, 4], 2305843009213693952, 1, 1, 0, false⟩] := by cbv
  have hreport : (oneByteShort.upsize farProducers (⟨18446744073709551615,
      .ofList [(⟨0, 1, 1⟩, 4611686018427387904)]⟩ : Ledger)).1 =
      .ok ⟨[⟨⟨1⟩, ⟨0, 1, 1⟩, 3, 3 * 2 ^ 61⟩, ⟨⟨2⟩, ⟨0, 1, 1⟩, 1, 2 ^ 61⟩],
        [(⟨0, 1, 1⟩, 4611686018427387903)]⟩ := by cbv
  obtain ⟨groups, report, e', l', hgroups', heq, hrows, _, hstarts⟩ :=
    upsize_exact_at_limits hk hvalid hl farProducers
  cases hgroups.symm.trans hgroups'
  rw [heq] at hreport
  cases hreport
  have hstart : (⟨⟨0, 1, 1⟩, [⟨⟨1⟩, ⟨0, 1, 1⟩, [2, 4], 2305843009213693952, 1, 1, 0, false⟩,
        ⟨⟨2⟩, ⟨0, 1, 1⟩, [2, 4], 2305843009213693952, 1, 1, 0, false⟩],
      ⟨18446744073709551615, .ofList [(⟨0, 1, 1⟩, 4611686018427387904)]⟩⟩ : Start Ledger) ∈
      starts farProducers [(⟨0, 1, 1⟩, [⟨1⟩, ⟨2⟩])] oneByteShort
        (⟨18446744073709551615, .ofList [(⟨0, 1, 1⟩, 4611686018427387904)]⟩ : Ledger) := by
    rw [starts, hcands]
    exact List.mem_cons_self ..
  refine ⟨hk, hvalid, _, hl, _, _, e', l', hgroups, heq, rfl, fun row hrow => (hrows row hrow).2,
    rfl, _, hstart, hstarts _ hstart, le_rfl,
    ⟨⟨1⟩, ⟨0, 1, 1⟩, [2, 4], 2305843009213693952, 1, 1, 9223372036854775807, false⟩,
    .now (i := 0) (by decide), rfl, by decide⟩

end Epoch

end TorusRouting
