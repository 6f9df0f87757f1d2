import Mathlib.Data.List.Dedup
import TorusRouting.Proofs.L1.Growth

/-!
# Upsizing against a ledger

On an epoch that the ledger accounts for, upsizing succeeds and the ledger accounts for the result.
The report has one row for each buffer that may grow, with what was added to it, and the bytes that
the ledger has left on each of their cores.
-/

namespace TorusRouting

open Relay

/-- The row tells what was added to its buffer between two epochs. -/
def BufferUpsize.Describes (row : BufferUpsize) (e e' : Epoch) : Prop :=
  ∃ b b', e.buffers.get? row.id = some b ∧ e'.buffers.get? row.id = some b' ∧
    b'.allocated.toNat = b.allocated.toNat + row.tilesAdded ∧
    row.bytesAdded = row.tilesAdded * b.tileBytes.toNat

namespace Epoch

variable {e e' : Epoch} {config : Config} {core : Core} {l : Ledger}

/-! ## One core -/

/-- Hosted buffers are candidates, and they are accounted for. -/
theorem exists_candidates {ids : List BufferId} (config : Config) (hids : ids.Nodup)
    (hh : e.Hosts core ids) (hl : l.Accounts e) :
    ∃ cands, ids.mapM (e.candidate config core) = .ok cands ∧
      (∀ c ∈ cands, 0 < c.tileBytes ∧ c.bytes ≤ (l.allocated core).toNat) ∧
      ∀ aim : Candidate → Nat,
        (⟨cands.map fun c => { c with target := aim c }, l, []⟩ : Growth Ledger).Accounted
          config core l e := by
  obtain ⟨cands, hc⟩ : ∃ cands, ids.mapM (e.candidate config core) = .ok cands := by
    refine exists_mapM_eq_ok fun id hid => ?_
    obtain ⟨b, hb, _, _, hpos⟩ := hh id hid
    refine ⟨_, candidate_eq_ok.2 ⟨b, hb, ?_, rfl⟩⟩
    intro hzero
    rw [Buffer.bytes, hzero] at hpos
    exact Nat.not_lt_zero _ hpos
  have hread : ∀ c ∈ cands, ∃ id ∈ ids, e.candidate config core id = .ok c :=
    fun c hcm => exists_left_of_forall₂ (mapM_eq_ok.1 hc) hcm
  refine ⟨cands, hc, fun c hcm => ?_, fun aim => ?_⟩
  · obtain ⟨id, hid, h⟩ := hread c hcm
    obtain ⟨b, hb, _, rfl⟩ := candidate_eq_ok.1 h
    obtain ⟨b', hb', hu, rfl, hpos⟩ := hh id hid
    cases hb.symm.trans hb'
    have hbytes := bytes_le_usedL1 hb hu
    rw [hl.allocated]
    refine ⟨Nat.pos_of_mul_pos_left hpos, ?_⟩
    change min b.bytes maxWord64 ≤ _
    omega
  · obtain ⟨hmirrors, hmap⟩ := mirrors_candidates hids hc aim l
    refine ⟨hmirrors, ?_, ?_, hl, fun _ _ => rfl, fun h => absurd rfl h⟩
    · rw [List.map_map]
      exact hmap.symm ▸ hh
    · intro d hd
      obtain ⟨c, hcm, rfl⟩ := List.mem_map.1 hd
      obtain ⟨id, _, h⟩ := hread c hcm
      obtain ⟨b, _, _, rfl⟩ := candidate_eq_ok.1 h
      rfl

/-- A row is made when the bytes added fit a word. -/
theorem upsizeRow_eq_ok {c d : Candidate} {row : BufferUpsize} :
    upsizeRow c d = .ok row ↔ (d.allocated - c.allocated) * c.tileBytes < UInt64.size ∧
      row = ⟨c.id, c.core, d.allocated - c.allocated,
        (d.allocated - c.allocated) * c.tileBytes⟩ := by
  unfold upsizeRow fit64
  dsimp only
  split
  · rename_i hlt
    simp only [hlt, true_and]
    exact pure_eq_ok.trans eq_comm
  · rename_i hge
    simp only [hge, false_and, iff_false]
    exact fun h => nomatch h

/-- The row of a candidate that has grown describes its buffer. What was added fits a word: either
nothing was, or the core is within its budget. -/
theorem exists_upsizeRow {g : Growth Ledger} (hg : g.Accounted config core l (e.replay g.log))
    {c d : Candidate} {b : Buffer} (hb : e.buffers.get? c.id = some b) (hc : c.Shows config b)
    {target : Nat} (hcd : { c with target }.GrowsTo d) (hd : d ∈ g.cands) :
    ∃ row, upsizeRow c d = .ok row ∧ row.Describes e (e.replay g.log) := by
  have hid : d.id = c.id := by rw [hcd.same]
  have htile : d.tileBytes = c.tileBytes := by rw [hcd.same]
  have hle : c.allocated ≤ d.allocated := hcd.le
  obtain ⟨b', hb', hshow⟩ := hg.mirrors.stored d hd
  have hgrown : b'.allocated.toNat = b.allocated.toNat + (d.allocated - c.allocated) := by
    rw [← hc.allocated, ← hshow.allocated]
    omega
  have hfit : (d.allocated - c.allocated) * c.tileBytes < UInt64.size := by
    by_cases hlog : g.log = []
    · have heq : b' = b := by
        rw [hlog, hid] at hb'
        exact Option.some.inj (hb'.symm.trans hb)
      have hzero : d.allocated - c.allocated = 0 := by
        rw [heq] at hgrown
        omega
      rw [hzero, Nat.zero_mul]
      decide
    · obtain ⟨b'', hb'', hu, hcore, _⟩ := hg.hosts d.id (List.mem_map.2 ⟨d, hd, rfl⟩)
      cases hb'.symm.trans hb''
      have hbytes := bytes_le_usedL1 hb' hu
      have hwithin := hg.within hlog
      have hword := (e.replay g.log).device.l1Budget.toNat_lt
      have hadded : (d.allocated - c.allocated) * c.tileBytes ≤ b'.bytes := by
        rw [Buffer.bytes, ← hshow.allocated, ← hshow.tileBytes, htile]
        exact Nat.mul_le_mul_right _ (Nat.sub_le ..)
      rw [hcore] at hbytes
      simp only [UInt64.size]
      omega
  refine ⟨_, upsizeRow_eq_ok.2 ⟨hfit, rfl⟩, b, b', hb, hid ▸ hb', hgrown, ?_⟩
  rw [hc.tileBytes]

/-- The rows of a core describe its buffers, in the order of the candidates. -/
theorem exists_upsizeRows {g : Growth Ledger} (hg : g.Accounted config core l (e.replay g.log))
    {ids : List BufferId} {cands : List Candidate} {aim : Candidate → Nat}
    (hc : ids.mapM (e.candidate config core) = .ok cands)
    (hcd : List.Forall₂ (fun c d => { c with target := aim c }.GrowsTo d) cands g.cands) :
    ∃ rows, ((cands.zip g.cands).mapM fun (c, d) => upsizeRow c d) = .ok rows ∧
      rows.map (·.id) = cands.map (·.id) ∧ ∀ row ∈ rows, row.Describes e (e.replay g.log) := by
  have hpair : ∀ p ∈ cands.zip g.cands,
      ∃ row, upsizeRow p.1 p.2 = .ok row ∧ row.Describes e (e.replay g.log) := by
    intro p hp
    obtain ⟨hcm, hdm⟩ := List.of_mem_zip hp
    obtain ⟨id, _, h⟩ := exists_left_of_forall₂ (mapM_eq_ok.1 hc) hcm
    obtain ⟨b, hb, _, hb'⟩ := candidate_eq_ok.1 h
    have hid : p.1.id = id := by rw [hb']; rfl
    have hshow : p.1.Shows config b := by rw [hb']; exact ⟨rfl, rfl, rfl⟩
    exact exists_upsizeRow hg (hid.symm ▸ hb) hshow ((List.forall₂_iff_zip.1 hcd).2 hp) hdm
  obtain ⟨rows, hrows⟩ : ∃ rows, ((cands.zip g.cands).mapM fun p => upsizeRow p.1 p.2) =
      .ok rows := by
    refine exists_mapM_eq_ok fun p hp => ?_
    obtain ⟨row, h, _⟩ := hpair p hp
    exact ⟨row, h⟩
  have hrel := mapM_eq_ok.1 hrows
  refine ⟨rows, hrows, ?_, fun row hrow => ?_⟩
  · have hids : (cands.zip g.cands).map ((·.id) ∘ Prod.fst) = rows.map (·.id) := by
      refine map_eq_map_of_forall₂ (hrel.imp fun p row h => ?_)
      rw [(upsizeRow_eq_ok.1 h).2]
      rfl
    rw [← hids, ← List.map_map, List.map_fst_zip hcd.length_eq.le]
  · obtain ⟨p, hp, h⟩ := exists_left_of_forall₂ hrel hrow
    obtain ⟨row', h', hdescribes⟩ := hpair p hp
    cases h.symm.trans h'
    exact hdescribes

/-- The rows tell all bytes that the candidates gained. -/
theorem held_add_rows {cands ds : List Candidate} {rows : List BufferUpsize}
    (hgrown : List.Forall₂ (fun c d => c.allocated ≤ d.allocated ∧ d.tileBytes = c.tileBytes)
      cands ds)
    (hrows : ((cands.zip ds).mapM fun (c, d) => upsizeRow c d) = .ok rows) :
    Growth.held cands + total (rows.map (·.bytesAdded)) = Growth.held ds := by
  induction hgrown generalizing rows with
  | nil =>
    cases hrows
    rfl
  | @cons c d cands ds hcd _ ih =>
    rw [List.zip_cons_cons, List.mapM_cons] at hrows
    obtain ⟨row, hrow, hrows⟩ := bind_eq_ok.1 hrows
    obtain ⟨rows, hrest, hrows⟩ := bind_eq_ok.1 hrows
    cases hrows
    have hsplit : d.allocated * d.tileBytes = c.allocated * c.tileBytes + row.bytesAdded := by
      rw [(upsizeRow_eq_ok.1 hrow).2, hcd.2, ← Nat.add_mul, Nat.add_sub_cancel' hcd.1]
    have hih := ih hrest
    simp only [Growth.held, List.map_cons, total_cons] at hih ⊢
    omega

/-- The listed buffers grew, the ledger accounts for the result, and the rows describe the listed
buffers in order. -/
structure Upsized (e : Epoch) (config : Config) (ids : List BufferId) (rows : List BufferUpsize)
    (e' : Epoch) (l' : Ledger) : Prop where
  grows : e.Grows config ids e'
  accounts : l'.Accounts e'
  ids : rows.map (·.id) = ids
  describes : ∀ row ∈ rows, row.Describes e e'

/-- On one core, upsizing succeeds, adds no more bytes than were left and changes the count of no
other core. -/
theorem upsizeCore_upsized {ids : List BufferId} (config : Config) (hids : ids.Nodup)
    (hh : e.Hosts core ids) (hl : l.Accounts e) :
    ∃ rows e' l', e.upsizeCore config core ids l = (.ok rows, e', l') ∧
      e.Upsized config ids rows e' l' ∧
      total (rows.map (·.bytesAdded)) ≤ (l.available core).toNat ∧
      ∀ k, core ≠ k → l'.allocated k = l.allocated k := by
  obtain ⟨cands, hc, hsmall, haccounted⟩ := exists_candidates config hids hh hl
  have hrun := Growth.run_ok config.strategy hsmall (hl.within core)
  obtain ⟨aim, hist⟩ := Growth.run_history config.strategy core cands l
  have hg := hist.accounted (haccounted aim)
  have hcd := List.forall₂_map_left_iff.1 hist.growsTo
  obtain ⟨rows, hrows, hmap, hdescribes⟩ := exists_upsizeRows hg hc hcd
  have heq : e.upsizeCore config core ids l = (.ok rows,
      e.replay (Growth.run config.strategy core cands l).2.log,
      (Growth.run config.strategy core cands l).2.model) := by
    rw [upsizeCore, hc]
    dsimp only
    rw [hrun]
    exact Prod.ext hrows rfl
  have hgrows := upsizeCore_grows e config core hids l
  rw [heq] at hgrows
  refine ⟨rows, _, _, heq, ⟨hgrows, hg.accounts, ?_, hdescribes⟩, ?_, hg.elsewhere⟩
  · rw [hmap]
    exact (mirrors_candidates hids hc aim l).2
  · have hpaid := (hist.paid (haccounted aim)).of_aim
    have hadded := held_add_rows (hcd.imp fun c d h => ⟨h.le, by rw [h.same]⟩) hrows
    have hwithin := hg.accounts.within core
    rw [hpaid.gained] at hadded
    rw [hpaid.counted, hg.accounts.capacity, hgrows.device, ← hl.capacity] at hwithin
    rw [l.toNat_available]
    omega

/-! ## All cores -/

/-- Upsizing of disjoint buffers in a row. -/
theorem Upsized.append {ids ids' : List BufferId} {rows rows' : List BufferUpsize}
    {e₁ : Epoch} {l₁ l' : Ledger} (h : e.Upsized config ids rows e₁ l₁)
    (h' : e₁.Upsized config ids' rows' e' l') (hd : ∀ id ∈ ids, id ∉ ids') :
    e.Upsized config (ids ++ ids') (rows ++ rows') e' l' := by
  refine ⟨h.grows.trans h'.grows, h'.accounts, ?_, fun row hrow => ?_⟩
  · rw [List.map_append, h.ids, h'.ids]
  · rcases List.mem_append.1 hrow with hrow | hrow
    · have hid : row.id ∉ ids' := hd _ (h.ids ▸ List.mem_map.2 ⟨row, hrow, rfl⟩)
      obtain ⟨b, b', hb, hb', hadded⟩ := h.describes row hrow
      exact ⟨b, b', hb, (h'.grows.untouched _ hid).trans hb', hadded⟩
    · have hid : row.id ∉ ids := fun hm =>
        hd _ hm (h'.ids ▸ List.mem_map.2 ⟨row, hrow, rfl⟩)
      obtain ⟨b, b', hb, hb', hadded⟩ := h'.describes row hrow
      exact ⟨b, b', (h.grows.untouched _ hid).symm.trans hb, hb', hadded⟩

/-- Core by core, upsizing succeeds. The bytes reported as left on a core are not touched by the
cores after it. -/
theorem upsizeCores_upsized {groups : List (Core × List BufferId)} (config : Config)
    (hids : (groups.flatMap (·.2)).Nodup) (hcores : (groups.map (·.1)).Nodup)
    (hh : ∀ g ∈ groups, e.Hosts g.1 g.2) (hl : l.Accounts e) (r : UpsizeReport) :
    ∃ rows e' l', upsizeCores config groups r e l =
        (.ok ⟨r.buffers ++ rows, r.available ++ groups.map fun g => (g.1, l'.available g.1)⟩,
          e', l') ∧
      e.Upsized config (groups.flatMap (·.2)) rows e' l' ∧
      total (rows.map (·.bytesAdded)) ≤ total (groups.map fun g => (l.available g.1).toNat) ∧
      ∀ k, k ∉ groups.map (·.1) → l'.allocated k = l.allocated k := by
  induction groups generalizing r e l with
  | nil =>
    refine ⟨[], e, l, ?_, ⟨.refl .., hl, rfl, List.forall_mem_nil _⟩, Nat.le_refl _,
      fun _ _ => rfl⟩
    rw [upsizeCores, List.map_nil, List.append_nil, List.append_nil]
  | cons group groups ih =>
    obtain ⟨core, ids⟩ := group
    rw [List.flatMap_cons, List.nodup_append] at hids
    rw [List.map_cons, List.nodup_cons] at hcores
    obtain ⟨hhere, hrest, hdisjoint⟩ := hids
    obtain ⟨hcore, hcores⟩ := hcores
    obtain ⟨rows, e₁, l₁, heq, hup, hbytes, helse⟩ :=
      upsizeCore_upsized config hhere (hh _ (List.mem_cons_self ..)) hl
    obtain ⟨rows', e', l', heq', hup', hbytes', helse'⟩ :=
      ih hrest hcores (fun g hg => hup.grows.hosts (hh g (List.mem_cons_of_mem _ hg)))
        hup.accounts ⟨r.buffers ++ rows, r.available ++ [(core, l₁.available core)]⟩
    have havailable : l'.available core = l₁.available core := by
      rw [Ledger.available, Ledger.available, helse' core hcore, hup'.accounts.capacity,
        hup'.grows.device, hup.accounts.capacity]
    have hsame : groups.map (fun g => (l₁.available g.1).toNat) =
        groups.map fun g => (l.available g.1).toNat := by
      refine List.map_congr_left fun g hg => ?_
      have hne : core ≠ g.1 := fun h => hcore (List.mem_map.2 ⟨g, hg, h.symm⟩)
      rw [l₁.toNat_available, l.toNat_available, helse g.1 hne, hup.accounts.capacity,
        hup.grows.device, hl.capacity]
    refine ⟨rows ++ rows', e', l', ?_, ?_, ?_, fun k hk => ?_⟩
    · rw [upsizeCores, heq]
      refine heq'.trans ?_
      rw [List.map_cons, havailable, List.append_assoc, List.append_assoc]
      rfl
    · rw [List.flatMap_cons]
      exact hup.append hup' fun id hid hid' => hdisjoint id hid id hid' rfl
    · rw [List.map_append, total_append, List.map_cons, total_cons, ← hsame]
      exact Nat.add_le_add hbytes hbytes'
    · rw [List.map_cons, List.mem_cons, not_or] at hk
      rw [helse' k hk.2, helse k (Ne.symm hk.1)]

/-- Every core hosts the buffers listed for it. -/
theorem Grouping.hosts (hk : e.Filed config) {groups : List (Core × List BufferId)}
    (h : e.Grouping config groups) : ∀ g ∈ groups, e.Hosts g.1 g.2 := by
  intro g hg id hid
  obtain ⟨b, hb, hget, hcore⟩ := h.stored hk hg hid
  have hu := usesL1_of_mayGrow (mem_growing.1 hb).2
  obtain ⟨_, htile, hwhole⟩ := Buffer.check_eq_ok_iff.1 (h.sound b hb)
  exact ⟨b, hget, hu, hcore, Nat.mul_pos (hwhole hu).1 htile⟩

/-- Bytes left on the cores with buffers that may grow. -/
def spareL1 (e : Epoch) (config : Config) : Nat :=
  total (((e.growing config).map (·.core)).dedup.map fun core =>
    e.device.l1Budget.toNat - e.usedL1 core)

/-- Only cores with buffers that may grow are listed, each once. -/
theorem Grouping.total_available_le (hk : e.Filed config) {groups : List (Core × List BufferId)}
    (h : e.Grouping config groups) (hne : ∀ g ∈ groups, g.2 ≠ []) (hl : l.Accounts e) :
    total (groups.map fun g => (l.available g.1).toNat) ≤ e.spareL1 config := by
  have hsub : groups.map (·.1) ⊆ ((e.growing config).map (·.core)).dedup := by
    intro core hcore
    obtain ⟨g, hg, rfl⟩ := List.mem_map.1 hcore
    obtain ⟨id, hid⟩ := List.exists_mem_of_ne_nil _ (hne g hg)
    obtain ⟨b, hb, _, hcore⟩ := h.stored hk hg hid
    exact List.mem_dedup.2 (List.mem_map.2 ⟨b, hb, hcore⟩)
  have hleft : groups.map (fun g => (l.available g.1).toNat) =
      (groups.map (·.1)).map fun core => e.device.l1Budget.toNat - e.usedL1 core := by
    rw [List.map_map]
    exact List.map_congr_left fun g _ => hl.left_eq g.1
  rw [hleft]
  exact total_map_le_of_subperm _ (List.subperm_of_subset h.cores hsub)

/-- Upsizing succeeds on sound buffers that the ledger accounts for, if those that may grow are
stored under their ids. It reports every one of them, with no more bytes in total than their cores
had left, and what the ledger has left there then. -/
theorem upsize_filed (config : Config) (hk : e.Filed config)
    (hs : ∀ b ∈ e.growing config, b.check = .ok ()) (hl : l.Accounts e) :
    ∃ report ids e' l', e.upsize config l = (.ok report, e', l') ∧
      e.Upsized config ids report.buffers e' l' ∧ ids.Nodup ∧
      (∀ id, id ∈ ids ↔ ∃ b ∈ e.growing config, b.id = id) ∧
      (∀ entry ∈ report.available, entry.2 = l'.available entry.1) ∧
      total (report.buffers.map (·.bytesAdded)) ≤ e.spareL1 config := by
  obtain ⟨groups, hgroups⟩ := exists_relayBuffers hk hs
  have hg := relayBuffers_grouping hgroups
  obtain ⟨rows, e', l', heq, hup, hbytes, _⟩ :=
    upsizeCores_upsized config (hg.nodup_ids hk) hg.cores (hg.hosts hk) hl {}
  refine ⟨⟨rows, groups.map fun g => (g.1, l'.available g.1)⟩, _, e', l', ?_, hup,
    hg.nodup_ids hk, fun id => hg.mem_ids_iff, fun entry he => ?_,
    hbytes.trans (hg.total_available_le hk (relayBuffers_ne_nil hgroups) hl)⟩
  · rw [upsize, hgroups]
    exact heq
  · obtain ⟨g, _, rfl⟩ := List.mem_map.1 he
    rfl

/-- Upsizing succeeds on sound buffers of a well-keyed epoch that the ledger accounts for. -/
theorem upsize_upsized (config : Config) (hk : e.WellKeyed)
    (hs : ∀ b ∈ e.growing config, b.check = .ok ()) (hl : l.Accounts e) :
    ∃ report ids e' l', e.upsize config l = (.ok report, e', l') ∧
      e.Upsized config ids report.buffers e' l' ∧ ids.Nodup ∧
      (∀ id, id ∈ ids ↔ ∃ b ∈ e.growing config, b.id = id) ∧
      (∀ entry ∈ report.available, entry.2 = l'.available entry.1) ∧
      total (report.buffers.map (·.bytesAdded)) ≤ e.spareL1 config :=
  upsize_filed config (hk.filed config) hs hl

end Epoch

end TorusRouting
