import TorusRouting.Proofs.Relay.Frame

/-!
# The share of a core

The share of a core in an epoch is an epoch of its own: the L1 buffers of the core, in their order,
on the same device. Allocations written into the epoch are those written into its shares. Relay
buffers are grouped and sorted core by core, so the group of a core can be read off its share.
-/

namespace TorusRouting

open Relay

/-! ## Restricted tables -/

namespace Table

variable {κ α : Type} [DecidableEq κ] {t : Table κ α} {p : κ × α → Bool}

/-- The entries that satisfy a test, in their order. -/
def filter (t : Table κ α) (p : κ × α → Bool) : Table κ α :=
  ⟨t.toList.filter p, t.distinct.sublist (List.filter_sublist.map _)⟩

private theorem get?_filter (t : Table κ α) (p : κ × α → Bool) (k : κ) :
    (t.filter p).get? k = (t.get? k).filter fun a => p (k, a) := by
  ext a
  rw [get?_eq_some_iff, Option.filter_eq_some_iff, get?_eq_some_iff]
  exact List.mem_filter

omit [DecidableEq κ] in
/-- A part of a keyed table is keyed. -/
theorem KeyedBy.filter {key : α → κ} (h : t.KeyedBy key) (p : κ × α → Bool) :
    (t.filter p).KeyedBy key :=
  fun e he => h e (List.mem_of_mem_filter he)

/-- A change that the test does not see commutes with the restriction. -/
theorem filter_modify {k : κ} {f : α → α} (hp : ∀ a, p (k, f a) = p (k, a)) :
    (t.modify k f).filter p = (t.filter p).modify k f := by
  apply Table.ext
  change List.filter p (List.map _ _) = List.map _ _
  rw [List.filter_map]
  congr 2
  funext e
  simp only [Function.comp_apply]
  split
  · rename_i he
    rw [he, hp, ← he]
  · rfl

private theorem modify_of_get?_eq_none {k : κ} (h : t.get? k = none) (f : α → α) :
    t.modify k f = t := by
  apply Table.ext
  refine (List.map_congr_left fun e he => ?_).trans (List.map_id _)
  have hne : e.1 ≠ k := by
    rintro rfl
    rw [get?_eq_some_iff.2 he] at h
    cases h
  exact if_neg hne

private theorem filter_insert_of_pos {k : κ} (hp : ∀ a, p (k, a) = true) (a : α) :
    (t.insert k a).filter p = (t.filter p).insert k a := by
  apply Table.ext
  change List.filter p (put k a t.toList) = put k a (t.toList.filter p)
  induction t.toList with
  | nil => simp [put, hp]
  | cons e l ih =>
    obtain ⟨j, b⟩ := e
    by_cases hj : j = k
    · subst hj
      simp [put, hp]
    · by_cases hb : p (j, b) = true
      · simp [put, hj, hb, ih]
      · simp [put, hj, hb, ih]

private theorem filter_insert_of_neg {k : κ} (hp : ∀ a, p (k, a) = false) (a : α) :
    (t.insert k a).filter p = t.filter p := by
  apply Table.ext
  change List.filter p (put k a t.toList) = t.toList.filter p
  induction t.toList with
  | nil => simp [put, hp]
  | cons e l ih =>
    obtain ⟨j, b⟩ := e
    by_cases hj : j = k
    · subst hj
      simp [put, hp]
    · simp [put, hj, List.filter_cons, ih]

end Table

/-- A history moves nothing but its candidates. -/
theorem Relay.Growth.History.moved {σ : Type} [ResourceModel σ] {g g' : Growth σ}
    (h : History g g') {s : GrowthStep} (hs : s ∈ g'.log) :
    s ∈ g.log ∨ s.buffer ∈ g.cands.map (·.id) := by
  have hall : g'.cands.map (·.id) = g.cands.map (·.id) ∧
      ∀ s ∈ g'.log, s ∈ g.log ∨ s.buffer ∈ g.cands.map (·.id) := by
    apply h.invariant (P := fun g' => g'.cands.map (·.id) = g.cands.map (·.id) ∧
      ∀ s ∈ g'.log, s ∈ g.log ∨ s.buffer ∈ g.cands.map (·.id))
    · exact ⟨rfl, fun s hs => Or.inl hs⟩
    · rintro g₁ i c r ⟨hids, hlog⟩ hc hr
      refine ⟨(ids_settle hc r).trans hids, fun s hs => ?_⟩
      rcases List.mem_append.1 hs with hs | hs
      · exact hlog s hs
      · right
        rw [(hr.step_eq (Option.mem_toList.1 hs)).1, ← hids]
        exact List.mem_map.2 ⟨c, List.mem_of_getElem? hc, rfl⟩
  exact hall.2 s hs

/-! ## Shares of an epoch -/

/-- Does the buffer occupy L1 of the core? -/
def Buffer.sitsOn (b : Buffer) (core : Core) : Bool := b.usesL1 && b.core == core

namespace Epoch

variable {e e' : Epoch} {config : Config} {core : Core} {id : BufferId} {b : Buffer}

/-- The L1 buffers of a core, in table order. -/
def onCore (e : Epoch) (core : Core) : List Buffer := e.buffers.values.filter (·.sitsOn core)

/-- The L1 buffers of a core as an epoch on the same device. -/
def share (e : Epoch) (core : Core) : Epoch :=
  ⟨0, e.device, .empty, e.buffers.filter (·.2.sitsOn core), .empty⟩

/-- The share of a core has the buffers that sit on it. -/
theorem values_share (e : Epoch) (core : Core) :
    (e.share core).buffers.values = e.onCore core := by
  rw [onCore, Table.values, Table.values, List.filter_map]
  rfl

/-- The L1 buffers of a core in order, and the device, determine its share. -/
theorem share_eq (hk : e.WellKeyed) (hk' : e'.WellKeyed) (hd : e.device = e'.device)
    (h : e.onCore core = e'.onCore core) : e.share core = e'.share core := by
  have hbuffers : (e.share core).buffers = (e'.share core).buffers := by
    apply (hk.buffers.filter _).ext (hk'.buffers.filter _)
    exact (values_share e core).trans (h.trans (values_share e' core).symm)
  rw [share, share, hd]
  exact congrArg (fun buffers => (⟨0, e'.device, .empty, buffers, .empty⟩ : Epoch)) hbuffers

/-- A buffer is in the share of a core if it sits there. -/
theorem get?_share (e : Epoch) (core : Core) (id : BufferId) :
    (e.share core).buffers.get? id = (e.buffers.get? id).filter (·.sitsOn core) :=
  Table.get?_filter ..

/-! ## Written allocations -/

private theorem share_setAllocated (e : Epoch) (core : Core) (id : BufferId) (tiles : UInt64) :
    (e.setAllocated id tiles).share core = (e.share core).setAllocated id tiles := by
  simp only [share, setAllocated]
  rw [Table.filter_modify]
  intro b
  rfl

/-- The moves written into an epoch are written into the share of a core. -/
theorem share_replay (log : List GrowthStep) (e : Epoch) (core : Core) :
    (e.replay log).share core = (e.share core).replay log := by
  induction log generalizing e with
  | nil => rfl
  | cons s log ih =>
    change ((e.setAllocated _ _).replay log).share core =
      ((e.share core).setAllocated _ _).replay log
    rw [ih, share_setAllocated]

/-- Moves of buffers that are not stored change nothing. -/
theorem replay_of_absent {log : List GrowthStep}
    (h : ∀ s ∈ log, e.buffers.get? s.buffer = none) : e.replay log = e := by
  induction log with
  | nil => rfl
  | cons s log ih =>
    rw [List.forall_mem_cons] at h
    have hs : e.setAllocated s.buffer (UInt64.ofNat s.after) = e := by
      rw [setAllocated, Table.modify_of_get?_eq_none h.1]
    change (e.setAllocated _ _).replay log = e
    rw [hs]
    exact ih h.2

/-- What the turn of a core writes are moves of the listed buffers. -/
theorem upsizeCore_log {σ : Type} [ResourceModel σ] (e : Epoch) (config : Config) (core : Core)
    {ids : List BufferId} (hids : ids.Nodup) (m : σ) :
    ∃ log, (e.upsizeCore config core ids m).2.1 = e.replay log ∧ ∀ s ∈ log, s.buffer ∈ ids := by
  unfold upsizeCore
  split
  · exact ⟨[], rfl, nofun⟩
  · rename_i cands hc
    obtain ⟨aim, hist⟩ := Growth.run_history config.strategy core cands m
    refine ⟨_, rfl, fun s hs => ?_⟩
    have hmoved := hist.moved hs
    rw [List.map_map] at hmoved
    rw [← (mirrors_candidates hids hc aim m).2]
    exact hmoved.resolve_left List.not_mem_nil

/-! ## Groups -/

/-- The growing buffers of a share are those on its core. -/
theorem growing_share (e : Epoch) (config : Config) (core : Core) :
    (e.share core).growing config = (e.growing config).filter (·.core = core) := by
  rw [growing, growing, values_share, onCore, List.filter_filter, List.filter_filter]
  apply List.filter_congr
  intro b _
  change (e.mayGrow config b && b.sitsOn core) = (decide (b.core = core) && e.mayGrow config b)
  cases hmay : e.mayGrow config b with
  | false => simp
  | true => simp [Buffer.sitsOn, usesL1_of_mayGrow hmay, Bool.beq_eq_decide_eq]

/-- A buffer that may grow is found in the share of its core. -/
theorem get?_share_growing (hk : e.WellKeyed) (hb : b ∈ e.growing config) :
    (e.share b.core).buffers.get? b.id = e.buffers.get? b.id := by
  obtain ⟨hm, hmay⟩ := mem_growing.1 hb
  rw [get?_share, hk.buffers.get?_key hm, Option.filter_some_pos]
  simp [Buffer.sitsOn, usesL1_of_mayGrow hmay]

/-- The list of a core is grouped from the buffers on it. -/
theorem groupByCore_filter {l : List Buffer} {cores t : Table Core (List BufferId)}
    (h : groupByCore l cores = .ok t) (core : Core) :
    groupByCore (l.filter (·.core = core)) (cores.filter (·.1 = core)) =
      .ok (t.filter (·.1 = core)) := by
  induction l generalizing cores with
  | nil =>
    cases h
    rfl
  | cons b l ih =>
    obtain ⟨⟨⟩, hcheck, h⟩ := bind_eq_ok.1 h
    have hrest := ih h
    by_cases hb : b.core = core
    · rw [Table.filter_insert_of_pos (by simpa using hb)] at hrest
      rw [List.filter_cons_of_pos (by simpa using hb)]
      have hget : (cores.filter (·.1 = core)).get? b.core = cores.get? b.core := by
        rw [Table.get?_filter]
        cases cores.get? b.core <;> simp [hb]
      rw [← hget] at hrest
      exact bind_eq_ok.2 ⟨(), hcheck, hrest⟩
    · rw [Table.filter_insert_of_neg (by simpa using hb)] at hrest
      rw [List.filter_cons_of_neg (by simpa using hb)]
      exact hrest

/-- Sorting by utilization looks at the listed buffers only. -/
theorem byUtilization_congr {ids : List BufferId}
    (h : ∀ id ∈ ids, e'.buffers.get? id = e.buffers.get? id) :
    e'.byUtilization ids = e.byUtilization ids := by
  have hstored : (ids.mapM fun id => do return (id, ← e'.storedBuffer id)) =
      (ids.mapM fun id => do return (id, ← e.storedBuffer id) : Outcome _) := by
    apply mapM_congr
    intro id hid
    rw [storedBuffer, storedBuffer, h id hid]
  rw [byUtilization, byUtilization, hstored]

/-- The buffers listed for a core are found in its share. -/
theorem get?_share_entry {t : Table Core (List BufferId)} (hk : e.WellKeyed)
    (ht : groupByCore (e.growing config) .empty = .ok t) {entry : Core × List BufferId}
    (he : entry ∈ t.toList) :
    ∀ id ∈ entry.2, (e.share entry.1).buffers.get? id = e.buffers.get? id := by
  intro id hid
  rw [groupByCore_entry ht he] at hid
  obtain ⟨b, hb, rfl⟩ := List.mem_map.1 hid
  obtain ⟨hb, hcore⟩ := List.mem_filter.1 hb
  rw [← of_decide_eq_true hcore]
  exact get?_share_growing hk hb

/-- The share of a core has its group, and no other. -/
theorem relayBuffers_share {groups : List (Core × List BufferId)} (hk : e.WellKeyed)
    (h : e.relayBuffers config = .ok groups) (core : Core) :
    (e.share core).relayBuffers config = .ok (groups.filter (·.1 = core)) := by
  obtain ⟨t, ht, h⟩ := bind_eq_ok.1 h
  have hgroup := groupByCore_filter ht core
  rw [← growing, ← growing_share] at hgroup
  refine bind_eq_ok.2 ⟨t.filter (·.1 = core), hgroup, ?_⟩
  refine (mapM_congr ?_).trans (mapM_eq_ok.2 (List.rel_filter ?_ (mapM_eq_ok.1 h)))
  · rintro ⟨k, ids⟩ he
    obtain ⟨hm, hcore⟩ := List.mem_filter.1 he
    obtain rfl : k = core := of_decide_eq_true hcore
    simp only [byUtilization_congr (get?_share_entry hk ht hm)]
  · intro entry g hg
    obtain ⟨ids, _, hg⟩ := bind_eq_ok.1 hg
    cases pure_eq_ok.1 hg
    rfl

end Epoch

end TorusRouting
