import TorusRouting.Proofs.L1.Isolation
import TorusRouting.Proofs.L1.Refusal

/-!
# The turn of each core

Upsizing takes the cores in turn. The turns of other cores touch neither the buffers of a core nor
its part of the ledger, so at the end every core is as growth on its own candidates left it.
-/

namespace TorusRouting.Epoch

open Relay

variable {e e' e₁ : Epoch} {config : Config} {core : Core} {ids : List BufferId}
  {l l' l₁ m : Ledger}
  {cands : List Candidate}

/-- The listed buffers of a core ended as growth on their candidates leaves them, and the ledger
with the bytes that it leaves. -/
structure Turn (e : Epoch) (config : Config) (core : Core) (ids : List BufferId)
    (cands : List Candidate) (m : Ledger) (e' : Epoch) (l' : Ledger) : Prop where
  read : ids.mapM (e.candidate config core) = .ok cands
  room : (m.available core).toNat < maxWord64
  done : (Growth.run config.strategy core cands m).1 = .ok ()
  ids : (Growth.run config.strategy core cands m).2.cands.map (·.id) = ids
  shown : ∀ c ∈ (Growth.run config.strategy core cands m).2.cands,
    ∃ b, e'.buffers.get? c.id = some b ∧ c.Shows config b
  left : l'.available core = (Growth.run config.strategy core cands m).2.model.available core

/-- A nonempty buffer takes some of the largest word. -/
theorem Hosts.room (hh : e.Hosts core ids) (hne : ids ≠ []) (hl : l.Accounts e) :
    (l.available core).toNat < maxWord64 := by
  obtain ⟨id, hid⟩ := List.exists_mem_of_ne_nil ids hne
  obtain ⟨b, hb, hu, rfl, hpos⟩ := hh id hid
  have hbytes := bytes_le_usedL1 hb hu
  have hcount := hl.allocated b.core
  have hleft := l.toNat_available b.core
  have hword := l.capacity.toNat_lt
  have hmax : maxWord64 = 2 ^ 64 - 1 := rfl
  omega

private theorem upsizeCore_turn {rows : List BufferUpsize} (hids : ids.Nodup)
    (hh : e.Hosts core ids)
    (hne : ids ≠ []) (hl : l.Accounts e)
    (heq : e.upsizeCore config core ids l = (.ok rows, e', l')) :
    ∃ cands, e.Turn config core ids cands l e' l' := by
  obtain ⟨cands, hc, _, _⟩ := exists_candidates config hids hh hl
  obtain ⟨aim, hist⟩ := Growth.run_history config.strategy core cands l
  obtain ⟨hstart, hmap⟩ := mirrors_candidates hids hc aim l
  obtain ⟨hmirrors, _, hrun⟩ := hist.mirrors hstart
  rw [upsizeCore, hc] at heq
  obtain ⟨_, hdone, _⟩ := bind_eq_ok.1 (congrArg Prod.fst heq)
  cases congrArg Prod.snd heq
  refine ⟨cands, hc, hh.room hne hl, hdone, ?_, hmirrors.stored, rfl⟩
  rw [hrun, List.map_map]
  exact hmap

/-- A turn stands when the buffers and the bytes left on its core are not touched afterwards. -/
theorem Turn.after (h : e.Turn config core ids cands m e₁ l₁)
    (hbuffers : ∀ id ∈ ids, e'.buffers.get? id = e₁.buffers.get? id)
    (hleft : l'.available core = l₁.available core) :
    e.Turn config core ids cands m e' l' := by
  refine { h with shown := fun c hc => ?_, left := hleft.trans h.left }
  rw [hbuffers c.id (h.ids ▸ List.mem_map.2 ⟨c, hc, rfl⟩)]
  exact h.shown c hc

/-- A turn is the same from an earlier epoch with the same buffers. -/
theorem Turn.before (h : e₁.Turn config core ids cands m e' l')
    (hbuffers : ∀ id ∈ ids, e₁.buffers.get? id = e.buffers.get? id) :
    e.Turn config core ids cands m e' l' := by
  refine { h with read := ?_ }
  rw [← h.read]
  apply mapM_congr
  intro id hid
  rw [candidate, candidate, buffer, buffer, hbuffers id hid]

/-- Every listed core has its turn, with the bytes that were left on it at the start. -/
theorem upsizeCores_turns {groups : List (Core × List BufferId)}
    (hids : (groups.flatMap (·.2)).Nodup) (hcores : (groups.map (·.1)).Nodup)
    (hh : ∀ g ∈ groups, e.Hosts g.1 g.2) (hne : ∀ g ∈ groups, g.2 ≠ []) (hl : l.Accounts e)
    {r r' : UpsizeReport} (heq : upsizeCores config groups r e l = (.ok r', e', l')) :
    ∀ g ∈ groups, ∃ cands m, m.available g.1 = l.available g.1 ∧
      e.Turn config g.1 g.2 cands m e' l' := by
  induction groups generalizing r e l with
  | nil => exact List.forall_mem_nil _
  | cons group groups ih =>
    obtain ⟨core, ids⟩ := group
    rw [List.flatMap_cons, List.nodup_append] at hids
    rw [List.map_cons, List.nodup_cons] at hcores
    rw [List.forall_mem_cons] at hh hne
    obtain ⟨hhere, hrest, hdisjoint⟩ := hids
    obtain ⟨rows, e₁, l₁, heq₁, hup, _, helse⟩ := upsizeCore_upsized config hhere hh.1 hl
    have hhosts := fun g hg => hup.grows.hosts (hh.2 g hg)
    obtain ⟨rows', e₂, l₂, heq₂, hup', _, helse'⟩ :=
      upsizeCores_upsized config hrest hcores.2 hhosts hup.accounts
        ⟨r.buffers ++ rows, r.available ++ [(core, ResourceModel.available l₁ core)]⟩
    rw [upsizeCores, heq₁] at heq
    cases heq.symm.trans heq₂
    refine List.forall_mem_cons.2 ⟨?_, fun g hg => ?_⟩
    · obtain ⟨cands, hturn⟩ := upsizeCore_turn hhere hh.1 hne.1 hl heq₁
      refine ⟨cands, l, rfl, hturn.after (fun id hid => ?_) ?_⟩
      · exact hup'.grows.untouched id fun hm => hdisjoint id hid id hm rfl
      · rw [Ledger.available, Ledger.available, helse' core hcores.1, hup'.accounts.capacity,
          hup'.grows.device, hup.accounts.capacity]
    · obtain ⟨cands, m, hstart, hturn⟩ := ih hrest hcores.2 hhosts hne.2 hup.accounts heq g hg
      refine ⟨cands, m, hstart.trans ?_, hturn.before fun id hid => ?_⟩
      · have hcore : core ≠ g.1 := fun h => hcores.1 (h ▸ List.mem_map.2 ⟨g, hg, rfl⟩)
        rw [Ledger.available, Ledger.available, helse g.1 hcore, hup.accounts.capacity,
          hup.grows.device, hl.capacity]
      · refine hup.grows.untouched id fun hm => ?_
        exact hdisjoint id hm id (List.mem_flatMap.2 ⟨g, hg, hid⟩) rfl

/-- Every core with buffers that may grow has its turn, with all of them and with the bytes that
were left on it at the start. -/
theorem exists_turn (hk : e.Filed config) (hl : l.Accounts e) {report : UpsizeReport}
    (heq : e.upsize config l = (.ok report, e', l')) {b : Buffer} (hb : b ∈ e.growing config) :
    ∃ ids cands m, ids.Perm (((e.growing config).filter (·.core = b.core)).map (·.id)) ∧
      m.available b.core = l.available b.core ∧ e.Turn config b.core ids cands m e' l' := by
  rw [upsize] at heq
  split at heq
  · cases heq
  · rename_i groups hgroups
    have hg := relayBuffers_grouping hgroups
    obtain ⟨⟨core, ids⟩, hgroup, hcore⟩ := List.mem_map.1 (hg.covers b hb)
    cases hcore
    obtain ⟨cands, m, hstart, hturn⟩ := upsizeCores_turns (hg.nodup_ids hk) hg.cores (hg.hosts hk)
      (relayBuffers_ne_nil hgroups) hl heq _ hgroup
    exact ⟨ids, cands, m, hg.ids _ hgroup, hstart, hturn⟩

/-- Every buffer that may grow has its turn, together with those on its core. -/
theorem upsize_turn (hk : e.Filed config) (hl : l.Accounts e) {report : UpsizeReport}
    (heq : e.upsize config l = (.ok report, e', l')) {b : Buffer} (hb : b ∈ e.growing config) :
    ∃ ids cands m, ids.Perm (((e.growing config).filter (·.core = b.core)).map (·.id)) ∧
      e.Turn config b.core ids cands m e' l' := by
  obtain ⟨ids, cands, m, hperm, _, hturn⟩ := exists_turn hk hl heq hb
  exact ⟨ids, cands, m, hperm, hturn⟩

/-- The candidates of a turn are the listed buffers. -/
theorem Turn.candidates (h : e.Turn config core ids cands m e' l') :
    ∀ c ∈ cands, c.id ∈ ids ∧
      ∃ b, e.buffers.get? c.id = some b ∧ c = .ofBuffer config core c.id b := by
  intro c hc
  obtain ⟨id, hid, hread⟩ := exists_left_of_forall₂ (mapM_eq_ok.1 h.read) hc
  obtain ⟨b, hb, _, rfl⟩ := candidate_eq_ok.1 hread
  exact ⟨hid, b, hb, rfl⟩

/-- A turn starts from fresh candidates. -/
theorem Turn.fresh (h : e.Turn config core ids cands m e' l') : Growth.Fresh core cands m where
  onCore c hc := by
    obtain ⟨_, b, _, hb⟩ := h.candidates c hc
    rw [hb]
    rfl
  ascending c hc := by
    obtain ⟨_, b, _, hb⟩ := h.candidates c hc
    rw [hb]
    exact validSizes_pairwise ..
  active c hc := by
    obtain ⟨_, b, _, hb⟩ := h.candidates c hc
    rw [hb]
    rfl
  room := h.room

end TorusRouting.Epoch
