import TorusRouting.Proofs.Relay.Share
import TorusRouting.Proofs.Relay.View
import TorusRouting.Proofs.Routing.AllOrNothing

/-!
# Cores do not influence each other

All cores are upsized in one run, against one ledger. Still, what happens on a core is what happens
when its share of the epoch is upsized alone, against its part of the ledger: the turn of the core
reads and writes nothing else, and the turns of other cores leave both alone. So two epochs with the
same share of a core agree on that core afterwards.
-/

namespace TorusRouting

open Relay

/-! ## The ledger of one core -/

namespace Ledger

/-- What the ledger counts on one core. -/
def only (l : Ledger) (core : Core) : Ledger :=
  ⟨l.capacity, Table.empty.insert core (l.allocated core)⟩

private theorem allocated_only (l : Ledger) (core : Core) :
    (l.only core).allocated core = l.allocated core := by
  rw [allocated, only, Table.get?_insert, if_pos rfl, Option.getD_some]

private theorem available_only (l : Ledger) (core : Core) :
    (l.only core).available core = l.available core := by
  rw [available, available, allocated_only]
  rfl

/-- The ledger of a core answers as the whole ledger does. -/
theorem only_view (core : Core) : ResourceModel.View (fun l : Ledger => l.only core) core where
  available l := available_only l core
  reserve := by
    intro l bytes
    change (l.only core).reserve core bytes =
      ((l.reserve core bytes).1, (l.reserve core bytes).2.only core)
    unfold reserve
    rw [available_only, allocated_only]
    split
    · rfl
    · have hcount : Ledger.allocated
          { l with used := l.used.insert core (l.allocated core + bytes) } core =
            l.allocated core + bytes := by
        rw [allocated, Table.get?_insert, if_pos rfl, Option.getD_some]
      have hput (a b : UInt64) :
          (Table.empty.insert core a).insert core b = Table.empty.insert core b :=
        Table.ext (by simp [Table.insert, Table.put])
      simp only [only, hcount, hput]

/-- Ledgers that account for the same L1 buffers of a core agree on it. -/
theorem Accounts.only_eq {l l' : Ledger} {e e' : Epoch} {core : Core} (h : l.Accounts e)
    (h' : l'.Accounts e') (hd : e.device = e'.device) (hs : e.onCore core = e'.onCore core) :
    l.only core = l'.only core := by
  have hused : e.usedL1 core = e'.usedL1 core := by
    change total ((e.onCore core).map _) = total ((e'.onCore core).map _)
    rw [hs]
  have hcount : l.allocated core = l'.allocated core := by
    rw [← UInt64.toNat_inj, h.allocated, h'.allocated, hused]
  rw [only, only, hcount, h.capacity, h'.capacity, hd]

end Ledger

/-! ## One turn -/

namespace Epoch

variable {σ : Type} [ResourceModel σ] {e e' : Epoch} {config : Config} {core k : Core} {l : Ledger}
  {ids : List BufferId}

omit [ResourceModel σ] in
private theorem candidates_core {cands : List Candidate}
    (h : ids.mapM (e.candidate config core) = .ok cands) : ∀ c ∈ cands, c.core = core := by
  intro c hc
  obtain ⟨id, _, h⟩ := exists_left_of_forall₂ (mapM_eq_ok.1 h) hc
  obtain ⟨b, _, _, rfl⟩ := candidate_eq_ok.1 h
  rfl

/-- The rows made in the turn of a core carry the core. -/
theorem upsizeCore_rows {rows : List BufferUpsize} {m m' : σ}
    (h : e.upsizeCore config core ids m = (.ok rows, e', m')) : ∀ row ∈ rows, row.core = core := by
  unfold upsizeCore at h
  split at h
  · cases h
  · rename_i cands hc
    obtain ⟨_, _, hrows⟩ := bind_eq_ok.1 (congrArg Prod.fst h)
    intro row hrow
    obtain ⟨p, hp, hmade⟩ := exists_left_of_forall₂ (mapM_eq_ok.1 hrows) hrow
    rw [(upsizeRow_eq_ok.1 hmade).2]
    exact candidates_core hc _ (List.of_mem_zip hp).1

/-- The turn of a core is the same on its share. -/
theorem upsizeCore_share (hh : e.Hosts core ids) (config : Config) (l : Ledger) :
    (e.share core).upsizeCore config core ids (l.only core) =
      ((e.upsizeCore config core ids l).1, (e.upsizeCore config core ids l).2.1.share core,
        (e.upsizeCore config core ids l).2.2.only core) := by
  have hcandidates : ids.mapM ((e.share core).candidate config core) =
      ids.mapM (e.candidate config core) := by
    apply mapM_congr
    intro id hid
    obtain ⟨b, hb, hu, hcore, _⟩ := hh id hid
    rw [candidate, candidate, buffer, buffer, get?_share, hb, Option.filter_some_pos]
    simp [Buffer.sitsOn, hu, hcore]
  rw [upsizeCore, upsizeCore, hcandidates]
  cases hc : ids.mapM (e.candidate config core) with
  | error f => rfl
  | ok cands =>
    have hrun := Growth.run_view (Ledger.only_view core) config.strategy (candidates_core hc) l
    simp only [hrun, share_replay]
    rfl

/-- The turn of another core writes nothing into the share of a core. -/
theorem share_upsizeCore_other (config : Config) (hids : ids.Nodup) (hh : e.Hosts k ids)
    (hne : k ≠ core) (m : σ) :
    (e.upsizeCore config k ids m).2.1.share core = e.share core := by
  obtain ⟨log, hlog, hlisted⟩ := e.upsizeCore_log config k hids m
  rw [hlog, share_replay]
  apply replay_of_absent
  intro s hs
  obtain ⟨b, hb, _, hcore, _⟩ := hh s.buffer (hlisted s hs)
  rw [get?_share, hb, Option.filter_some_neg]
  simp [Buffer.sitsOn, hcore, hne]

end Epoch

/-! ## The whole run -/

namespace UpsizeReport

variable {core k : Core} {rows : List BufferUpsize}

/-- What a report says about one core. -/
def on (r : UpsizeReport) (core : Core) : UpsizeReport :=
  ⟨r.buffers.filter (·.core = core), r.available.filter (·.1 = core)⟩

/-- The entries of a core are added to what is said about it. -/
theorem on_append_self (r : UpsizeReport) (hrows : ∀ row ∈ rows, row.core = core)
    (bytes : UInt64) :
    on ⟨r.buffers ++ rows, r.available ++ [(core, bytes)]⟩ core =
      ⟨(r.on core).buffers ++ rows, (r.on core).available ++ [(core, bytes)]⟩ := by
  have hall : rows.filter (·.core = core) = rows := by
    rw [List.filter_eq_self]
    intro row hrow
    exact decide_eq_true (hrows row hrow)
  simp [on, hall]

/-- The entries of another core add nothing. -/
theorem on_append_other (r : UpsizeReport) (hrows : ∀ row ∈ rows, row.core = k) (hne : k ≠ core)
    (bytes : UInt64) :
    on ⟨r.buffers ++ rows, r.available ++ [(k, bytes)]⟩ core = r.on core := by
  have hnone : rows.filter (·.core = core) = [] := by
    rw [List.filter_eq_nil_iff]
    intro row hrow heq
    exact hne ((hrows row hrow).symm.trans (of_decide_eq_true heq))
  simp [on, hnone, hne]

end UpsizeReport

namespace Epoch

variable {e e' : Epoch} {config : Config} {core : Core} {l l' : Ledger}

/-- Core by core, what happens on a core is what happens on its share. On the share, the turns of
other cores are left out. -/
theorem upsizeCores_share {groups : List (Core × List BufferId)} (config : Config)
    (hids : (groups.flatMap (·.2)).Nodup) (hh : ∀ g ∈ groups, e.Hosts g.1 g.2)
    (hl : l.Accounts e) (r : UpsizeReport) (core : Core) :
    ∃ report e' l', upsizeCores config groups r e l = (.ok report, e', l') ∧
      upsizeCores config (groups.filter (·.1 = core)) (r.on core) (e.share core) (l.only core) =
        (.ok (report.on core), e'.share core, l'.only core) := by
  induction groups generalizing r e l with
  | nil => exact ⟨r, e, l, rfl, rfl⟩
  | cons group groups ih =>
    obtain ⟨k, ids⟩ := group
    rw [List.flatMap_cons, List.nodup_append] at hids
    obtain ⟨hhere, hrest, _⟩ := hids
    have hhosts : e.Hosts k ids := hh _ (List.mem_cons_self ..)
    obtain ⟨rows, e₁, l₁, hturn, hup, _, helse⟩ := upsizeCore_upsized config hhere hhosts hl
    have hrows := upsizeCore_rows hturn
    obtain ⟨report, e', l', hrun, hshare⟩ :=
      ih hrest (fun g hg => hup.grows.hosts (hh g (List.mem_cons_of_mem _ hg))) hup.accounts
        ⟨r.buffers ++ rows, r.available ++ [(k, l₁.available k)]⟩
    refine ⟨report, e', l', ?_, ?_⟩
    · rw [upsizeCores, hturn]
      exact hrun
    · by_cases hk : k = core
      · subst hk
        rw [UpsizeReport.on_append_self r hrows] at hshare
        rw [List.filter_cons_of_pos (by simp), upsizeCores, upsizeCore_share hhosts, hturn]
        dsimp only
        rw [(Ledger.only_view k).available]
        exact hshare
      · have hepoch := share_upsizeCore_other config hhere hhosts hk l
        rw [hturn] at hepoch
        have hledger : l₁.only core = l.only core := by
          rw [Ledger.only, Ledger.only, helse core hk, hup.accounts.capacity, hup.grows.device,
            hl.capacity]
        rw [UpsizeReport.on_append_other r hrows hk, hepoch, hledger] at hshare
        rw [List.filter_cons_of_neg (by simpa using hk)]
        exact hshare

/-- Upsizing does to a core what it does to the share of the core alone. -/
theorem upsize_share (config : Config) (hk : e.WellKeyed)
    (hs : ∀ b ∈ e.growing config, b.check = .ok ()) (hl : l.Accounts e) (core : Core) :
    ∃ report e' l', e.upsize config l = (.ok report, e', l') ∧
      (e.share core).upsize config (l.only core) =
        (.ok (report.on core), e'.share core, l'.only core) := by
  have hfiled := hk.filed config
  obtain ⟨groups, hgroups⟩ := exists_relayBuffers hfiled hs
  have hg := relayBuffers_grouping hgroups
  obtain ⟨report, e', l', hrun, hshare⟩ :=
    upsizeCores_share config (hg.nodup_ids hfiled) (hg.hosts hfiled) hl {} core
  refine ⟨report, e', l', ?_, ?_⟩
  · rw [upsize, hgroups]
    exact hrun
  · rw [upsize, relayBuffers_share hk hgroups]
    exact hshare

/-- Cores do not influence each other. If two valid epochs for one device have the same L1 buffers
on a core, in the same order, then upsizing each against its own ledger leaves them with the same
buffers there. The rows and the bytes left that are reported for the core are the same as well, in
the same order, whatever else the epochs hold. -/
theorem upsize_isolates_cores {e₁ e₂ : Epoch} {l₁ l₂ : Ledger} (hk₁ : e₁.WellKeyed)
    (hk₂ : e₂.WellKeyed) (hv₁ : e₁.validate = .ok ()) (hv₂ : e₂.validate = .ok ())
    (hl₁ : Ledger.ofEpoch e₁ = .ok l₁) (hl₂ : Ledger.ofEpoch e₂ = .ok l₂)
    (hd : e₁.device = e₂.device) (hs : e₁.onCore core = e₂.onCore core) (config : Config) :
    ∃ r₁ e₁' l₁' r₂ e₂' l₂', e₁.upsize config l₁ = (.ok r₁, e₁', l₁') ∧
      e₂.upsize config l₂ = (.ok r₂, e₂', l₂') ∧
      e₁'.onCore core = e₂'.onCore core ∧
      r₁.buffers.filter (·.core = core) = r₂.buffers.filter (·.core = core) ∧
      r₁.available.filter (·.1 = core) = r₂.available.filter (·.1 = core) := by
  have hsound {e : Epoch} (hv : e.validate = .ok ()) : ∀ b ∈ e.growing config, b.check = .ok () :=
    fun b hb => check_of_validate hv b (mem_growing.1 hb).1
  have ha₁ := Ledger.ofEpoch_accounts hl₁
  have ha₂ := Ledger.ofEpoch_accounts hl₂
  obtain ⟨r₁, e₁', l₁', hup₁, hshare₁⟩ := upsize_share config hk₁ (hsound hv₁) ha₁ core
  obtain ⟨r₂, e₂', l₂', hup₂, hshare₂⟩ := upsize_share config hk₂ (hsound hv₂) ha₂ core
  rw [share_eq hk₁ hk₂ hd hs, ha₁.only_eq ha₂ hd hs, hshare₂] at hshare₁
  simp only [Prod.mk.injEq, Except.ok.injEq] at hshare₁
  obtain ⟨hreport, hepoch, _⟩ := hshare₁
  refine ⟨r₁, e₁', l₁', r₂, e₂', l₂', hup₁, hup₂, ?_, ?_, ?_⟩
  · rw [← values_share, ← values_share, hepoch]
  · exact (congrArg UpsizeReport.buffers hreport).symm
  · exact (congrArg UpsizeReport.available hreport).symm

/-- The buffers of the shared core between those of other cores, with an op and a pipe. -/
def busyMesh : Epoch where
  index := 7
  device := sharedCore.device
  ops := .ofList [("sum", ⟨"sum", 0, 2, 1, 1, 1, false, false, [{}]⟩)]
  buffers := .ofList [
    (⟨9⟩, ⟨⟨9⟩, .relay, ⟨0, 0, 0⟩, none, none, 10, 2, 24, 4⟩),
    (⟨1⟩, ⟨⟨1⟩, .relay, ⟨0, 1, 1⟩, none, none, 10, 2, 24, 2⟩),
    (⟨8⟩, ⟨⟨8⟩, .opInput, ⟨0, 2, 1⟩, none, some (.consumer "sum" 0), 10, 2, 24, 2⟩),
    (⟨2⟩, ⟨⟨2⟩, .relay, ⟨0, 1, 1⟩, none, none, 5, 3, 18, 6⟩),
    (⟨3⟩, ⟨⟨3⟩, .opOutput, ⟨0, 1, 1⟩, none, none, 4, 1, 18, 2⟩),
    (⟨7⟩, ⟨⟨7⟩, .relay, ⟨0, 0, 0⟩, none, none, 20, 1, 12, 1⟩)]
  pipes := .ofList [(⟨10⟩, ⟨⟨10⟩, [⟨1⟩], [[⟨8⟩]], [], none⟩)]

/-- On the busy mesh the shared core is reported as if it had the mesh for itself. -/
theorem upsize_isolates_cores_busyMesh :
    sharedCore.WellKeyed ∧ busyMesh.WellKeyed ∧
    sharedCore.validate = .ok () ∧ busyMesh.validate = .ok () ∧
    sharedCore.device = busyMesh.device ∧
    sharedCore.onCore ⟨0, 1, 1⟩ = busyMesh.onCore ⟨0, 1, 1⟩ ∧
    ∃ l₁ l₂, Ledger.ofEpoch sharedCore = .ok l₁ ∧ Ledger.ofEpoch busyMesh = .ok l₂ ∧
      ∃ r e' l', busyMesh.upsize { strategy := .proportional } l₂ = (.ok r, e', l') ∧
        (sharedCore.upsize { strategy := .proportional } l₁).2.1.onCore ⟨0, 1, 1⟩ =
          e'.onCore ⟨0, 1, 1⟩ ∧
        r.buffers.filter (·.core = ⟨0, 1, 1⟩) =
          [⟨⟨1⟩, ⟨0, 1, 1⟩, 6, 60⟩, ⟨⟨2⟩, ⟨0, 1, 1⟩, 12, 60⟩] ∧
        r.available.filter (·.1 = ⟨0, 1, 1⟩) = [(⟨0, 1, 1⟩, 2)] := by
  have hk₁ : sharedCore.WellKeyed := by decide
  have hk₂ : busyMesh.WellKeyed := by decide
  have hv₁ : sharedCore.validate = .ok () := by decide
  have hv₂ : busyMesh.validate = .ok () := by decide
  have hs : sharedCore.onCore ⟨0, 1, 1⟩ = busyMesh.onCore ⟨0, 1, 1⟩ := by decide
  have hl₁ : Ledger.ofEpoch sharedCore = .ok ⟨180, .ofList [(⟨0, 1, 1⟩, 58)]⟩ := by decide
  have hl₂ : Ledger.ofEpoch busyMesh =
      .ok ⟨180, .ofList [(⟨0, 0, 0⟩, 60), (⟨0, 1, 1⟩, 58), (⟨0, 2, 1⟩, 20)]⟩ := by decide
  have hok : (sharedCore.upsize { strategy := .proportional }
      (⟨180, .ofList [(⟨0, 1, 1⟩, 58)]⟩ : Ledger)).1 =
      .ok ⟨[⟨⟨1⟩, ⟨0, 1, 1⟩, 6, 60⟩, ⟨⟨2⟩, ⟨0, 1, 1⟩, 12, 60⟩], [(⟨0, 1, 1⟩, 2)]⟩ := by cbv
  refine ⟨hk₁, hk₂, hv₁, hv₂, rfl, hs, _, _, hl₁, hl₂, ?_⟩
  obtain ⟨r₁, e₁', l₁', r₂, e₂', l₂', hup₁, hup₂, hbuffers, hrows, havailable⟩ :=
    upsize_isolates_cores hk₁ hk₂ hv₁ hv₂ hl₁ hl₂ rfl hs { strategy := .proportional }
  rw [hup₁] at hok
  cases hok
  refine ⟨r₂, e₂', l₂', hup₂, ?_, hrows.symm, havailable.symm⟩
  rw [hup₁]
  exact hbuffers

end Epoch

end TorusRouting
