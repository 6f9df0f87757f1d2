import Mathlib.Data.List.Permutation
import TorusRouting.Proofs.Keyed
import TorusRouting.Proofs.Outcome
import TorusRouting.Proofs.StableSort
import TorusRouting.Relay.Grouping

/-!
# The relay buffers of each core

Grouping lists every buffer that may grow exactly once, under its own core, and nothing else. It
fails only on a buffer that is not sound.
-/

namespace TorusRouting

namespace Epoch

/-- The buffers that may grow, in table order. -/
def growing (e : Epoch) (config : Config) : List Buffer :=
  e.buffers.values.filter (e.mayGrow config)

/-- The growing buffers are those stored that may grow. -/
theorem mem_growing {e : Epoch} {config : Config} {b : Buffer} :
    b ∈ e.growing config ↔ b ∈ e.buffers.values ∧ e.mayGrow config b = true := List.mem_filter

/-- A buffer that may grow is in L1. -/
theorem usesL1_of_mayGrow {e : Epoch} {config : Config} {b : Buffer}
    (h : e.mayGrow config b = true) : b.usesL1 = true := by
  simp only [mayGrow, Bool.and_eq_true] at h
  exact h.1.2

/-- The buffers that may grow are stored under their ids. -/
def Filed (e : Epoch) (config : Config) : Prop :=
  ∀ entry ∈ e.buffers.toList, e.mayGrow config entry.2 = true → entry.1 = entry.2.id

/-- In a well-keyed epoch all is stored under its own id. -/
theorem WellKeyed.filed {e : Epoch} (hk : e.WellKeyed) (config : Config) : e.Filed config :=
  fun entry he _ => hk.buffers entry he

/-- A growing buffer is stored under its id. -/
theorem Filed.get? {e : Epoch} {config : Config} (h : e.Filed config) {b : Buffer}
    (hb : b ∈ e.growing config) : e.buffers.get? b.id = some b := by
  obtain ⟨hb, hgrow⟩ := mem_growing.1 hb
  obtain ⟨k, hm⟩ := Table.mem_values.1 hb
  have hk : k = b.id := h _ hm hgrow
  exact Table.get?_eq_some_iff.2 (hk ▸ hm)

/-- The growing buffers stand in table order. -/
theorem Filed.sublist {e : Epoch} {config : Config} (h : e.Filed config) :
    ((e.growing config).map (·.id)).Sublist e.buffers.keys := by
  have hkeys : (e.growing config).map (·.id) =
      (e.buffers.toList.filter fun entry => e.mayGrow config entry.2).map Prod.fst := by
    rw [growing, Table.values, List.filter_map, List.map_map]
    refine List.map_congr_left fun entry he => ?_
    obtain ⟨hm, hgrow⟩ := List.mem_filter.1 he
    exact (h entry hm hgrow).symm
  rw [hkeys]
  exact List.filter_sublist.map _

/-- Growing buffers have distinct ids. -/
theorem Filed.nodup {e : Epoch} {config : Config} (h : e.Filed config) :
    ((e.growing config).map (·.id)).Nodup := e.buffers.distinct.sublist h.sublist

/-- The list of a core gains the ids of its buffers, in order. -/
theorem groupByCore_get? {l : List Buffer} {cores t : Table Core (List BufferId)}
    (h : groupByCore l cores = .ok t) (core : Core) :
    (t.get? core).getD [] =
      (cores.get? core).getD [] ++ (l.filter (·.core = core)).map (·.id) := by
  induction l generalizing cores with
  | nil =>
    cases h
    simp
  | cons b l ih =>
    obtain ⟨_, _, h⟩ := bind_eq_ok.1 h
    rw [ih h, Table.get?_insert, List.filter_cons]
    by_cases hb : b.core = core
    · simp [hb]
    · simp [hb]

/-- The cores with a list are those that had one and those of the buffers. -/
theorem groupByCore_isSome {l : List Buffer} {cores t : Table Core (List BufferId)}
    (h : groupByCore l cores = .ok t) (core : Core) :
    (t.get? core).isSome ↔ (cores.get? core).isSome ∨ ∃ b ∈ l, b.core = core := by
  induction l generalizing cores with
  | nil =>
    cases h
    simp
  | cons b l ih =>
    obtain ⟨_, _, h⟩ := bind_eq_ok.1 h
    rw [ih h, Table.get?_insert]
    by_cases hb : b.core = core
    · simp [hb]
    · simp [hb]

/-- Grouping succeeds exactly on sound buffers. -/
theorem groupByCore_eq_ok_iff {l : List Buffer} {cores : Table Core (List BufferId)} :
    (∃ t, groupByCore l cores = .ok t) ↔ ∀ b ∈ l, b.check = .ok () := by
  induction l generalizing cores with
  | nil => exact ⟨fun _ b hb => absurd hb List.not_mem_nil, fun _ => ⟨cores, rfl⟩⟩
  | cons b l ih =>
    rw [List.forall_mem_cons]
    constructor
    · rintro ⟨t, h⟩
      obtain ⟨⟨⟩, hb, h⟩ := bind_eq_ok.1 h
      exact ⟨hb, ih.1 ⟨t, h⟩⟩
    · rintro ⟨hb, hl⟩
      obtain ⟨t, h⟩ := ih.2 hl
      exact ⟨t, bind_eq_ok.2 ⟨(), hb, h⟩⟩

/-- An entry of a grouping from scratch lists the buffers of its core, in order. -/
theorem groupByCore_entry {l : List Buffer} {t : Table Core (List BufferId)}
    (h : groupByCore l .empty = .ok t) {entry : Core × List BufferId} (he : entry ∈ t.toList) :
    entry.2 = (l.filter (·.core = entry.1)).map (·.id) := by
  have hget := groupByCore_get? h entry.1
  rw [Table.get?_eq_some_iff.2 he] at hget
  simpa using hget

/-- Ordering by utilization only permutes. -/
theorem byUtilization_perm {e : Epoch} {ids sorted : List BufferId}
    (h : e.byUtilization ids = .ok sorted) : sorted.Perm ids := by
  unfold byUtilization at h
  split at h
  · cases h
    exact .rfl
  · obtain ⟨stored, hs, h⟩ := bind_eq_ok.1 h
    cases h
    have hids : ids.map id = stored.map (·.1) := by
      refine map_eq_map_of_forall₂ ((mapM_eq_ok.1 hs).imp fun id p hp => ?_)
      obtain ⟨b, _, hp⟩ := bind_eq_ok.1 hp
      cases hp
      rfl
    rw [List.map_id] at hids
    exact hids ▸ (stableSort_perm _ stored).map _

/-- Stored buffers can be ordered by utilization. -/
theorem exists_byUtilization {e : Epoch} {ids : List BufferId}
    (h : ∀ id ∈ ids, ∃ b, e.storedBuffer id = .ok b) :
    ∃ sorted, e.byUtilization ids = .ok sorted := by
  unfold byUtilization
  split
  · exact ⟨ids, rfl⟩
  · obtain ⟨stored, hs⟩ := exists_mapM_eq_ok (l := ids)
      (f := fun id => do return (id, ← e.storedBuffer id)) fun id hid => by
      obtain ⟨b, hb⟩ := h id hid
      exact ⟨(id, b), bind_eq_ok.2 ⟨b, hb, rfl⟩⟩
    exact ⟨_, bind_eq_ok.2 ⟨stored, hs, rfl⟩⟩

/-- What a grouping of the growing buffers by core has to be. -/
structure Grouping (e : Epoch) (config : Config) (groups : List (Core × List BufferId)) : Prop where
  /-- Every buffer that may grow is sound. -/
  sound : ∀ b ∈ e.growing config, b.check = .ok ()
  /-- No core is listed twice. -/
  cores : (groups.map (·.1)).Nodup
  /-- A core lists the growing buffers on it. -/
  ids : ∀ g ∈ groups, g.2.Perm (((e.growing config).filter (·.core = g.1)).map (·.id))
  /-- Every growing buffer has its core listed. -/
  covers : ∀ b ∈ e.growing config, b.core ∈ groups.map (·.1)

/-- Grouping lists the entries of a table of cores, each ordered by utilization. -/
theorem relayBuffers_eq_ok {e : Epoch} {config : Config} {groups : List (Core × List BufferId)}
    (h : e.relayBuffers config = .ok groups) :
    ∃ t, groupByCore (e.growing config) .empty = .ok t ∧
      List.Forall₂ (fun entry g => entry.1 = g.1 ∧ e.byUtilization entry.2 = .ok g.2)
        t.toList groups := by
  obtain ⟨t, ht, h⟩ := bind_eq_ok.1 h
  refine ⟨t, ht, (mapM_eq_ok.1 h).imp fun entry g hp => ?_⟩
  obtain ⟨ids, hids, hp⟩ := bind_eq_ok.1 hp
  cases hp
  exact ⟨rfl, hids⟩

/-- The groups that are upsized group the growing buffers. -/
theorem relayBuffers_grouping {e : Epoch} {config : Config} {groups : List (Core × List BufferId)}
    (h : e.relayBuffers config = .ok groups) : e.Grouping config groups := by
  obtain ⟨t, ht, hg⟩ := relayBuffers_eq_ok h
  have hcores : t.keys = groups.map (·.1) := map_eq_map_of_forall₂ (hg.imp fun _ _ hp => hp.1)
  refine ⟨groupByCore_eq_ok_iff.1 ⟨t, ht⟩, hcores ▸ t.distinct, fun g hgm => ?_, fun b hb => ?_⟩
  · obtain ⟨entry, he, hcore, hids⟩ := exists_left_of_forall₂ hg hgm
    rw [← hcore, ← groupByCore_entry ht he]
    exact byUtilization_perm hids
  · rw [← hcores]
    have hs := (groupByCore_isSome ht b.core).2 (Or.inr ⟨b, hb, rfl⟩)
    obtain ⟨ids, hids⟩ := Option.isSome_iff_exists.1 hs
    exact List.mem_map.2 ⟨_, Table.get?_eq_some_iff.1 hids, rfl⟩

/-- A core is listed for some buffer on it. -/
theorem relayBuffers_ne_nil {e : Epoch} {config : Config} {groups : List (Core × List BufferId)}
    (h : e.relayBuffers config = .ok groups) : ∀ g ∈ groups, g.2 ≠ [] := by
  obtain ⟨t, ht, hgroups⟩ := relayBuffers_eq_ok h
  intro g hg hnil
  obtain ⟨entry, he, _, hids⟩ := exists_left_of_forall₂ hgroups hg
  have hlisted := (groupByCore_isSome ht entry.1).1 (by rw [Table.get?_eq_some_iff.2 he]; rfl)
  obtain ⟨b, hb, hcore⟩ := hlisted.resolve_left (by simp)
  have hmem : b.id ∈ entry.2 := by
    rw [groupByCore_entry ht he]
    exact List.mem_map.2 ⟨b, List.mem_filter.2 ⟨hb, decide_eq_true hcore⟩, rfl⟩
  have hsorted := (byUtilization_perm hids).mem_iff.2 hmem
  rw [hnil] at hsorted
  cases hsorted

/-- Sound buffers stored under their ids can be grouped. -/
theorem exists_relayBuffers {e : Epoch} {config : Config} (hk : e.Filed config)
    (hs : ∀ b ∈ e.growing config, b.check = .ok ()) :
    ∃ groups, e.relayBuffers config = .ok groups := by
  obtain ⟨t, ht⟩ : ∃ t, groupByCore (e.growing config) .empty = .ok t :=
    groupByCore_eq_ok_iff.2 hs
  have hstored (entry : Core × List BufferId) (he : entry ∈ t.toList) :
      ∀ id ∈ entry.2, ∃ b, e.storedBuffer id = .ok b := by
    intro id hid
    rw [groupByCore_entry ht he] at hid
    obtain ⟨b, hb, rfl⟩ := List.mem_map.1 hid
    exact ⟨b, by rw [storedBuffer, hk.get? (List.mem_filter.1 hb).1]⟩
  obtain ⟨groups, hg⟩ := exists_mapM_eq_ok (l := t.toList)
    (f := fun entry => do return (entry.1, ← e.byUtilization entry.2)) fun entry he => by
    obtain ⟨sorted, hsorted⟩ := exists_byUtilization (hstored entry he)
    exact ⟨(entry.1, sorted), bind_eq_ok.2 ⟨sorted, hsorted, rfl⟩⟩
  exact ⟨groups, bind_eq_ok.2 ⟨t, ht, hg⟩⟩

namespace Grouping

variable {e : Epoch} {config : Config} {groups : List (Core × List BufferId)}

/-- A listed id is that of a growing buffer on the core. -/
theorem mem_group_iff (h : e.Grouping config groups) {g : Core × List BufferId} (hg : g ∈ groups)
    {id : BufferId} :
    id ∈ g.2 ↔ ∃ b ∈ e.growing config, b.core = g.1 ∧ b.id = id := by
  rw [(h.ids g hg).mem_iff, List.mem_map]
  constructor
  · rintro ⟨b, hb, hid⟩
    obtain ⟨hb, hcore⟩ := List.mem_filter.1 hb
    exact ⟨b, hb, of_decide_eq_true hcore, hid⟩
  · rintro ⟨b, hb, hcore, hid⟩
    exact ⟨b, List.mem_filter.2 ⟨hb, decide_eq_true hcore⟩, hid⟩

/-- The listed ids are those of the growing buffers. -/
theorem mem_ids_iff (h : e.Grouping config groups) {id : BufferId} :
    id ∈ groups.flatMap (·.2) ↔ ∃ b ∈ e.growing config, b.id = id := by
  rw [List.mem_flatMap]
  constructor
  · rintro ⟨g, hg, hid⟩
    obtain ⟨b, hb, _, hbid⟩ := (h.mem_group_iff hg).1 hid
    exact ⟨b, hb, hbid⟩
  · rintro ⟨b, hb, hid⟩
    obtain ⟨g, hg, hcore⟩ := List.mem_map.1 (h.covers b hb)
    exact ⟨g, hg, (h.mem_group_iff hg).2 ⟨b, hb, hcore.symm, hid⟩⟩

/-- A listed id is stored, as a growing buffer on the core. -/
theorem stored (hk : e.Filed config) (h : e.Grouping config groups) {g : Core × List BufferId}
    (hg : g ∈ groups) {id : BufferId} (hid : id ∈ g.2) :
    ∃ b ∈ e.growing config, e.buffers.get? id = some b ∧ b.core = g.1 := by
  obtain ⟨b, hb, hcore, rfl⟩ := (h.mem_group_iff hg).1 hid
  exact ⟨b, hb, hk.get? hb, hcore⟩

/-- No id is listed twice. -/
theorem nodup_ids (hk : e.Filed config) (h : e.Grouping config groups) :
    (groups.flatMap (·.2)).Nodup := by
  rw [List.nodup_flatMap]
  constructor
  · intro g hg
    rw [(h.ids g hg).nodup_iff]
    exact hk.nodup.sublist (List.filter_sublist.map _)
  · refine (List.pairwise_map.1 h.cores).imp_of_mem fun hf hg hne => ?_
    intro id hid hid'
    obtain ⟨b, _, hb, hcore⟩ := h.stored hk hf hid
    obtain ⟨b', _, hb', hcore'⟩ := h.stored hk hg hid'
    cases hb.symm.trans hb'
    exact hne (hcore.symm.trans hcore')

end Grouping

end Epoch

end TorusRouting
