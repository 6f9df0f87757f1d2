import TorusRouting.Proofs.L1.Totals
import TorusRouting.Proofs.L1.Turns
import TorusRouting.Proofs.Routing.Sizing

/-!
# Greedy upsizing leaves nothing to grow

After greedy upsizing no buffer that may grow could pay for any larger valid size with the bytes
left on its core. An epoch in this state is left alone by upsizing, against the ledger it was grown
with and against a ledger made anew.
-/

namespace TorusRouting

open Relay

namespace Ledger

variable {l l' : Ledger} {e : Epoch}

/-- An epoch that some ledger accounts for has a ledger of its own. -/
theorem Accounts.exists_ofEpoch (h : l.Accounts e) : ∃ l', ofEpoch e = .ok l' := by
  refine Ledger.exists_ofEpoch fun core => ?_
  rw [← h.allocated, ← h.capacity]
  exact h.within core

/-- Ledgers that account for one epoch have the same left on every core. -/
theorem Accounts.available_eq (h : l.Accounts e) (h' : l'.Accounts e) (core : Core) :
    l'.available core = l.available core := by
  have hcount : l'.allocated core = l.allocated core := by
    rw [← UInt64.toNat_inj, h.allocated, h'.allocated]
  rw [available, available, hcount, h.capacity, h'.capacity]

end Ledger

namespace Epoch

variable {e e' : Epoch} {config : Config} {core : Core} {ids : List BufferId} {l l' m : Ledger}
  {cands : List Candidate}

/-- No buffer that may grow could pay for a larger valid size. -/
def Full (e : Epoch) (config : Config) (l : Ledger) : Prop :=
  ∀ b ∈ e.growing config, ∀ s ∈ b.sizes config, b.allocated.toNat < s →
    (l.available b.core).toNat < (s - b.allocated.toNat) * b.tileBytes.toNat

/-! ## What growth keeps about the buffers that may grow -/

private theorem Grows.mayGrow_eq (h : e.Grows config ids e') {b b' : Buffer}
    (hg : b.GrowsTo config b') :
    e'.mayGrow config b' = e.mayGrow config b := by
  rw [mayGrow, mayGrow, h.device, hg.same]
  rfl

/-- A buffer that may grow afterwards is one that might grow before. -/
theorem Grows.exists_growing (h : e.Grows config ids e') (hk : e.WellKeyed) {b' : Buffer}
    (hb' : b' ∈ e'.growing config) :
    ∃ b ∈ e.growing config, b.id = b'.id ∧ b.core = b'.core ∧ b.GrowsTo config b' := by
  obtain ⟨hm, hmay⟩ := mem_growing.1 hb'
  have hget := (h.wellKeyed hk).buffers.get?_key hm
  obtain ⟨b, hb⟩ := Table.exists_get?_of_keys_eq h.keys hget
  obtain ⟨b₁, hb₁, hg⟩ := h.buffer _ b hb
  cases hget.symm.trans hb₁
  have hmay' : e.mayGrow config b = true := (h.mayGrow_eq hg).symm.trans hmay
  refine ⟨b, mem_growing.2 ⟨Table.mem_values_of_get? hb, hmay'⟩, ?_, ?_, hg⟩
  · rw [hg.same]
  · rw [hg.same]

/-! ## Growth is maximal -/

/-- After the turn of a core its buffers can pay for no larger size. -/
theorem Turn.stuck (h : e.Turn config core ids cands m e' l') (hgreedy : config.strategy = .greedy)
    {id : BufferId} (hid : id ∈ ids) {b : Buffer} (hb : e'.buffers.get? id = some b) :
    ∀ s ∈ b.sizes config, b.allocated.toNat < s →
      (l'.available core).toNat < (s - b.allocated.toNat) * b.tileBytes.toNat := by
  have hstuck := h.fresh.run_stuck
  have hids := h.ids
  have hshown := h.shown
  have hleft := h.left
  rw [hgreedy] at hids hshown hleft
  obtain ⟨c, hc, rfl⟩ := List.mem_map.1 (hids ▸ hid)
  obtain ⟨b', hb', hshow⟩ := hshown c hc
  cases hb.symm.trans hb'
  rw [← hshow.sizes, ← hshow.allocated, ← hshow.tileBytes, hleft]
  exact hstuck c hc

/-- After a greedy upsizing no buffer has room for another size. -/
theorem upsize_full {report : UpsizeReport} (hk : e.WellKeyed) (hl : l.Accounts e)
    (hgreedy : config.strategy = .greedy) (heq : e.upsize config l = (.ok report, e', l')) :
    e'.Full config l' := by
  have hgrows := upsize_grows hk config l
  rw [heq] at hgrows
  intro b' hb'
  obtain ⟨b, hb, hid, hcore, _⟩ := hgrows.exists_growing hk hb'
  obtain ⟨ids, cands, m, hperm, hturn⟩ := upsize_turn (hk.filed config) hl heq hb
  have hmem : b'.id ∈ ids := by
    rw [hperm.mem_iff, ← hid]
    exact List.mem_map.2 ⟨b, List.mem_filter.2 ⟨hb, decide_eq_true rfl⟩, rfl⟩
  rw [← hcore]
  exact hturn.stuck hgreedy hmem ((hgrows.wellKeyed hk).buffers.get?_key (mem_growing.1 hb').1)

/-! ## A full epoch is left alone -/

/-- On a core whose buffers cannot grow, a turn changes nothing. -/
theorem upsizeCore_idle (hids : ids.Nodup) (hh : e.Hosts core ids) (hne : ids ≠ [])
    (hl : l.Accounts e)
    (hfull : ∀ id ∈ ids, ∀ b, e.buffers.get? id = some b → ∀ s ∈ b.sizes config,
      b.allocated.toNat < s →
        (l.available core).toNat < (s - b.allocated.toNat) * b.tileBytes.toNat) :
    (e.upsizeCore config core ids l).2 = (e, l) := by
  obtain ⟨cands, hc, _, haccounted⟩ := exists_candidates config hids hh hl
  obtain ⟨aim, hist⟩ := Growth.run_history config.strategy core cands l
  have hstuck : ∀ d ∈ cands.map fun c => { c with target := aim c },
      d.Stuck (l.available core).toNat := by
    intro d hd
    obtain ⟨c, hcm, rfl⟩ := List.mem_map.1 hd
    obtain ⟨id, hid, hread⟩ := exists_left_of_forall₂ (mapM_eq_ok.1 hc) hcm
    obtain ⟨b, hb, _, rfl⟩ := candidate_eq_ok.1 hread
    exact hfull id hid b hb
  obtain ⟨hmodel, hlog⟩ := hist.quiet (haccounted aim).onCore (hh.room hne hl) hstuck
  rw [upsizeCore, hc]
  dsimp only
  rw [hlog, hmodel]
  rfl

private theorem upsizeCores_idle {groups : List (Core × List BufferId)}
    (hids : (groups.flatMap (·.2)).Nodup) (hh : ∀ g ∈ groups, e.Hosts g.1 g.2)
    (hne : ∀ g ∈ groups, g.2 ≠ []) (hl : l.Accounts e)
    (hfull : ∀ g ∈ groups, ∀ id ∈ g.2, ∀ b, e.buffers.get? id = some b → ∀ s ∈ b.sizes config,
      b.allocated.toNat < s →
        (l.available g.1).toNat < (s - b.allocated.toNat) * b.tileBytes.toNat)
    (r : UpsizeReport) : (upsizeCores config groups r e l).2 = (e, l) := by
  induction groups generalizing r with
  | nil => rfl
  | cons group groups ih =>
    obtain ⟨core, ids⟩ := group
    rw [List.flatMap_cons, List.nodup_append] at hids
    rw [List.forall_mem_cons] at hh hne hfull
    have hidle := upsizeCore_idle hids.1 hh.1 hne.1 hl hfull.1
    rw [upsizeCores]
    split
    · rename_i heq
      rw [heq] at hidle
      exact hidle
    · rename_i heq
      rw [heq] at hidle
      cases hidle
      exact ih hids.2.1 hh.2 hne.2 hfull.2 _

/-- Upsizing has nothing to add: it changes neither the epoch nor the ledger and reports nothing. -/
def Settled (e : Epoch) (config : Config) (l : Ledger) : Prop :=
  ∃ report, e.upsize config l = (.ok report, e, l) ∧
    (∀ row ∈ report.buffers, row.tilesAdded = 0 ∧ row.bytesAdded = 0) ∧ report.tilesAdded = .ok 0

/-- An epoch without room is left as it is. -/
theorem Full.settled (hfull : e.Full config l) (hk : e.WellKeyed)
    (hs : ∀ b ∈ e.growing config, b.check = .ok ()) (hl : l.Accounts e) : e.Settled config l := by
  obtain ⟨report, ids, e', l', heq, hup, _⟩ := upsize_upsized config hk hs hl
  have hidle : (e.upsize config l).2 = (e, l) := by
    obtain ⟨groups, hgroups⟩ := exists_relayBuffers (hk.filed config) hs
    have hg := relayBuffers_grouping hgroups
    rw [upsize, hgroups]
    refine upsizeCores_idle (hg.nodup_ids (hk.filed config)) (hg.hosts (hk.filed config))
      (relayBuffers_ne_nil hgroups) hl (fun g hgm id hid b hb => ?_) {}
    obtain ⟨b', hb', hget, hcore⟩ := hg.stored (hk.filed config) hgm hid
    cases hb.symm.trans hget
    rw [← hcore]
    exact hfull b hb'
  rw [heq] at hidle
  cases hidle
  have hrows : ∀ row ∈ report.buffers, row.tilesAdded = 0 ∧ row.bytesAdded = 0 := by
    intro row hrow
    obtain ⟨b, b', hb, hb', htiles, hbytes⟩ := hup.describes row hrow
    cases hb.symm.trans hb'
    have hzero : row.tilesAdded = 0 := by omega
    rw [hbytes, hzero, Nat.zero_mul]
    exact ⟨rfl, rfl⟩
  refine ⟨report, heq, hrows, ?_⟩
  have hsum : total (report.buffers.map (·.tilesAdded)) ≤ report.buffers.length * 0 :=
    total_map_le fun row hrow => (hrows row hrow).1.le
  rw [UpsizeReport.tilesAdded, Nat.le_zero.1 hsum]
  rfl

/-- Greedy upsizing of a valid epoch succeeds. After it every buffer that may grow lacks the bytes
for each of its larger valid sizes, counted exactly. Upsizing again adds nothing, with the ledger
left by the first run as with one made from the new epoch, which has as much left on every core. -/
theorem upsize_maximal (hk : e.WellKeyed) (hvalid : e.validate = .ok ())
    (hl : Ledger.ofEpoch e = .ok l) (hgreedy : config.strategy = .greedy) :
    ∃ report e' l', e.upsize config l = (.ok report, e', l') ∧
      (∀ b ∈ e.growing config, ∃ b', e'.buffers.get? b.id = some b' ∧ b.GrowsTo config b' ∧
        ∀ s ∈ b.sizes config, b'.allocated.toNat < s →
          (l'.available b.core).toNat < (s - b'.allocated.toNat) * b.tileBytes.toNat) ∧
      e'.Settled config l' ∧
      ∃ l'', Ledger.ofEpoch e' = .ok l'' ∧ e'.Settled config l'' ∧
        ∀ core, l''.available core = l'.available core := by
  have haccounts := Ledger.ofEpoch_accounts hl
  have hsound {e : Epoch} (hvalid : e.validate = .ok ()) :
      ∀ b ∈ e.growing config, b.check = .ok () :=
    fun b hb => check_of_validate hvalid b (mem_growing.1 hb).1
  obtain ⟨report, ids, e', l', heq, hup, _⟩ := upsize_upsized config hk (hsound hvalid) haccounts
  have hfull := upsize_full hk haccounts hgreedy heq
  have hk' := hup.grows.wellKeyed hk
  have hsound' := hsound (hup.grows.validate hvalid)
  obtain ⟨l'', hl''⟩ := hup.accounts.exists_ofEpoch
  have haccounts'' := Ledger.ofEpoch_accounts hl''
  have hleft := hup.accounts.available_eq haccounts''
  have hfull'' : e'.Full config l'' := by
    intro b hb
    rw [hleft]
    exact hfull b hb
  refine ⟨report, e', l', heq, fun b hb => ?_, hfull.settled hk' hsound' hup.accounts, l'', hl'',
    hfull''.settled hk' hsound' haccounts'', hleft⟩
  obtain ⟨hm, hmay⟩ := mem_growing.1 hb
  obtain ⟨b', hb', hg⟩ := hup.grows.buffer _ b (hk.buffers.get?_key hm)
  have hb'm : b' ∈ e'.growing config :=
    mem_growing.2 ⟨Table.mem_values_of_get? hb', (hup.grows.mayGrow_eq hg).trans hmay⟩
  have hstuck := hfull b' hb'm
  have hcore : b'.core = b.core := by rw [hg.same]
  have htile : b'.tileBytes = b.tileBytes := by rw [hg.same]
  have hsizes : b'.sizes config = b.sizes config := by rw [hg.same, Buffer.sizes, Buffer.sizes]
  rw [hcore, htile, hsizes] at hstuck
  exact ⟨b', hb', hg, hstuck⟩

/-- On the busy mesh two cores are shared. The second buffer ends at 9 tiles of 5 bytes: the next
valid size is 18, and 7 bytes are left for it. -/
theorem upsize_maximal_busyMesh :
    busyMesh.WellKeyed ∧ busyMesh.validate = .ok () ∧ ({} : Config).strategy = .greedy ∧
    ∃ l, Ledger.ofEpoch busyMesh = .ok l ∧
      ∃ report e' l' b', busyMesh.upsize {} l = (.ok report, e', l') ∧
        report.available = [(⟨0, 0, 0⟩, 0), (⟨0, 1, 1⟩, 7)] ∧
        e'.buffers.get? ⟨2⟩ = some b' ∧ b'.allocated = 9 ∧ 18 ∈ b'.sizes {} ∧
        (l'.available ⟨0, 1, 1⟩).toNat < (18 - 9) * 5 ∧ e'.Settled {} l' := by
  have hk : busyMesh.WellKeyed := by decide
  have hvalid : busyMesh.validate = .ok () := by decide
  have hl : Ledger.ofEpoch busyMesh =
      .ok ⟨180, .ofList [(⟨0, 0, 0⟩, 60), (⟨0, 1, 1⟩, 58), (⟨0, 2, 1⟩, 20)]⟩ := by decide
  have hreport : (busyMesh.upsize {}
      (⟨180, .ofList [(⟨0, 0, 0⟩, 60), (⟨0, 1, 1⟩, 58), (⟨0, 2, 1⟩, 20)]⟩ : Ledger)).1 =
      .ok ⟨[⟨⟨7⟩, ⟨0, 0, 0⟩, 5, 100⟩, ⟨⟨9⟩, ⟨0, 0, 0⟩, 2, 20⟩, ⟨⟨1⟩, ⟨0, 1, 1⟩, 10, 100⟩,
        ⟨⟨2⟩, ⟨0, 1, 1⟩, 3, 15⟩], [(⟨0, 0, 0⟩, 0), (⟨0, 1, 1⟩, 7)]⟩ := by cbv
  have htiles : (Table.get? (busyMesh.upsize {}
      (⟨180, .ofList [(⟨0, 0, 0⟩, 60), (⟨0, 1, 1⟩, 58), (⟨0, 2, 1⟩, 20)]⟩ : Ledger)).2.1.buffers
        ⟨2⟩).map (·.allocated) = some 9 := by cbv
  have hgreedy : ({} : Config).strategy = .greedy := rfl
  obtain ⟨report, e', l', heq, hstuck, hsettled, _⟩ := upsize_maximal hk hvalid hl hgreedy
  rw [heq] at hreport htiles
  obtain ⟨b', hb', hgrow, hbytes⟩ :=
    hstuck ⟨⟨2⟩, .relay, ⟨0, 1, 1⟩, none, none, 5, 3, 18, 6⟩ (by decide)
  rw [hb', Option.map_some, Option.some.injEq] at htiles
  have hsize : 18 ∈ validSizes 3 18 (130000 / 5) :=
    mem_validSizes.2 ⟨by decide, Or.inr ⟨6, by decide, rfl, by decide, by decide⟩⟩
  have hsizes : b'.sizes {} = validSizes 3 18 (130000 / 5) := by
    rw [hgrow.same]
    rfl
  cases hreport
  refine ⟨hk, hvalid, hgreedy, _, hl, _, e', l', b', heq, rfl, hb', htiles, hsizes ▸ hsize, ?_,
    hsettled⟩
  rw [htiles] at hbytes
  exact hbytes 18 hsize (by decide)

end Epoch

end TorusRouting
