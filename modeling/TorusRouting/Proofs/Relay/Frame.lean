import TorusRouting.Proofs.Relay.Grouping
import TorusRouting.Proofs.Relay.History
import TorusRouting.Proofs.Relay.Sizes

/-!
# What upsizing changes

Upsizing writes nothing but allocations of buffers that may grow. The candidates show the stored
buffers all along, so every write moves a stored buffer up to one of its valid sizes. From a sound
allocation such a move ends at a multiple of the granule, never at one of the smaller valid sizes.
-/

namespace TorusRouting

open Relay

namespace Buffer

/-- Tiles beyond which a relay buffer needs no more: those of the whole epoch, or those that hide
the latency of the producer. -/
def usefulTiles (b : Buffer) (config : Config) : Nat :=
  min b.totalTiles.toNat (config.latencyBytes.toNat / b.tileBytes.toNat)

/-- Sizes the buffer may take. -/
def sizes (b : Buffer) (config : Config) : List Nat :=
  validSizes b.granule.toNat b.totalTiles.toNat (config.latencyBytes.toNat / b.tileBytes.toNat)

/-- The check passes on positive granule and tile size, and in L1 on whole granules. -/
theorem check_eq_ok_iff {b : Buffer} :
    b.check = .ok () ↔ 0 < b.granule.toNat ∧ 0 < b.tileBytes.toNat ∧
      (b.usesL1 = true → 0 < b.allocated.toNat ∧ b.granule.toNat ∣ b.allocated.toNat) := by
  have hpos (n : UInt64) : 0 < n.toNat ↔ n ≠ 0 := by
    rw [Nat.pos_iff_ne_zero, ne_eq, ne_eq, ← UInt64.toNat_inj, UInt64.toNat_zero]
  have hdvd : b.granule.toNat ∣ b.allocated.toNat ↔ b.allocated % b.granule = 0 := by
    rw [Nat.dvd_iff_mod_eq_zero, ← UInt64.toNat_inj, UInt64.toNat_mod, UInt64.toNat_zero]
  rw [hpos, hpos, hpos, hdvd, check]
  split
  · rename_i hg
    simp [hg, reject]
  · rename_i hg
    split
    · rename_i ht
      simp [ht, reject]
    · rename_i ht
      split
      · rename_i ha
        simp only [Bool.and_eq_true, Bool.or_eq_true, beq_iff_eq, bne_iff_ne] at ha
        simp only [reject, reduceCtorEq, false_iff]
        rintro ⟨_, _, h⟩
        obtain ⟨h0, h1⟩ := h ha.1
        exact ha.2.elim h0 (· h1)
      · rename_i ha
        simp only [Bool.and_eq_true, Bool.or_eq_true, beq_iff_eq, bne_iff_ne, not_and, not_or,
          not_not] at ha
        simp only [true_iff]
        exact ⟨hg, ht, ha⟩

/-- `b'` is `b` moved up to one of its valid sizes, or not moved at all. -/
structure GrowsTo (b : Buffer) (config : Config) (b' : Buffer) : Prop where
  same : b' = { b with allocated := b'.allocated }
  moved : b'.allocated = b.allocated ∨
    b.allocated < b'.allocated ∧ b'.allocated.toNat ∈ b.sizes config

/-- A buffer may stay as it is. -/
theorem GrowsTo.refl (b : Buffer) (config : Config) : b.GrowsTo config b := ⟨rfl, Or.inl rfl⟩

/-- A buffer never shrinks. -/
theorem GrowsTo.le {b b' : Buffer} {config : Config} (h : b.GrowsTo config b') :
    b.allocated.toNat ≤ b'.allocated.toNat := by
  rcases h.moved with he | ⟨hlt, _⟩
  · rw [he]
  · exact (UInt64.lt_iff_toNat_lt.1 hlt).le

/-- A buffer grows in two stretches. -/
theorem GrowsTo.trans {a b c : Buffer} {config : Config} (h : a.GrowsTo config b)
    (h' : b.GrowsTo config c) : a.GrowsTo config c := by
  have hsizes : b.sizes config = a.sizes config := by rw [h.same, sizes, sizes]
  constructor
  · rw [h'.same, h.same]
  · rcases h'.moved with he | ⟨hlt, hm⟩
    · rw [he]
      exact h.moved
    · refine Or.inr ⟨?_, hsizes ▸ hm⟩
      exact UInt64.lt_iff_toNat_lt.2 (h.le.trans_lt (UInt64.lt_iff_toNat_lt.1 hlt))

/-- A valid size is a word. -/
theorem lt_size_of_mem_sizes {b : Buffer} {config : Config} {s : Nat} (h : s ∈ b.sizes config) :
    s < UInt64.size := by
  have hle := le_of_mem_validSizes h
  have hg := b.granule.toNat_lt
  have ht := b.totalTiles.toNat_lt
  simp only [UInt64.size]
  omega

/-- From whole granules, growth ends at a multiple of the granule that divides the useful tiles. -/
theorem GrowsTo.multiple {b b' : Buffer} {config : Config} (h : b.GrowsTo config b')
    (hb : b.check = .ok ()) (hu : b.usesL1 = true) :
    b'.allocated = b.allocated ∨ b.allocated < b'.allocated ∧
      ∃ k, 2 ≤ k ∧ b'.allocated.toNat = k * b.granule.toNat ∧
        b'.allocated.toNat ∣ b.usefulTiles config ∧
        b'.allocated.toNat ≤ b.usefulTiles config := by
  obtain ⟨_, _, hl1⟩ := check_eq_ok_iff.1 hb
  obtain ⟨hpos, hdvd⟩ := hl1 hu
  rcases h.moved with he | ⟨hlt, hm⟩
  · exact Or.inl he
  · have hg : b.granule.toNat < b'.allocated.toNat :=
      (Nat.le_of_dvd hpos hdvd).trans_lt (UInt64.lt_iff_toNat_lt.1 hlt)
    exact Or.inr ⟨hlt, multiple_of_mem_validSizes hm hg⟩

end Buffer

namespace Epoch

/-- Growth of the listed buffers, and no other change. -/
structure Grows (e : Epoch) (config : Config) (ids : List BufferId) (e' : Epoch) : Prop where
  index : e'.index = e.index
  device : e'.device = e.device
  ops : e'.ops = e.ops
  pipes : e'.pipes = e.pipes
  keys : e'.buffers.keys = e.buffers.keys
  buffer : ∀ id b, e.buffers.get? id = some b →
    ∃ b', e'.buffers.get? id = some b' ∧ b.GrowsTo config b'
  untouched : ∀ id, id ∉ ids → e'.buffers.get? id = e.buffers.get? id

variable {e e' e'' : Epoch} {config : Config} {ids ids' : List BufferId}

namespace Grows

/-- Nothing grows. -/
theorem refl (e : Epoch) (config : Config) (ids : List BufferId) : e.Grows config ids e :=
  ⟨rfl, rfl, rfl, rfl, rfl, fun _ b hb => ⟨b, hb, .refl b config⟩, fun _ _ => rfl⟩

/-- An epoch grows in two stretches. -/
theorem trans (h : e.Grows config ids e') (h' : e'.Grows config ids' e'') :
    e.Grows config (ids ++ ids') e'' where
  index := h'.index.trans h.index
  device := h'.device.trans h.device
  ops := h'.ops.trans h.ops
  pipes := h'.pipes.trans h.pipes
  keys := h'.keys.trans h.keys
  buffer := by
    intro id b hb
    obtain ⟨b', hb', hg⟩ := h.buffer id b hb
    obtain ⟨b'', hb'', hg'⟩ := h'.buffer id b' hb'
    exact ⟨b'', hb'', hg.trans hg'⟩
  untouched := by
    intro id hid
    rw [List.mem_append, not_or] at hid
    exact (h'.untouched id hid.2).trans (h.untouched id hid.1)

/-- Growth among some buffers is growth among more. -/
theorem mono (h : e.Grows config ids e') (hs : ids ⊆ ids') : e.Grows config ids' e' :=
  { h with untouched := fun id hid => h.untouched id fun hm => hid (hs hm) }

/-- Growth keeps every buffer under its id. -/
theorem wellKeyed (h : e.Grows config ids e') (hk : e.WellKeyed) : e'.WellKeyed where
  ops := h.ops ▸ hk.ops
  pipes := h.pipes ▸ hk.pipes
  buffers := by
    refine hk.buffers.of_keys_eq h.keys fun id b hb => ?_
    obtain ⟨b', hb', hg⟩ := h.buffer id b hb
    exact ⟨b', hb', by rw [hg.same]⟩

end Grows

/-- Raising the allocation of a stored buffer to a valid size is growth. -/
theorem setAllocated_grows {id : BufferId} {b : Buffer} {tiles : UInt64}
    (hb : e.buffers.get? id = some b) (hlt : b.allocated < tiles)
    (hs : tiles.toNat ∈ b.sizes config) : e.Grows config [id] (e.setAllocated id tiles) where
  index := rfl
  device := rfl
  ops := rfl
  pipes := rfl
  keys := Table.keys_modify ..
  buffer := by
    intro j c hc
    simp only [setAllocated, Table.get?_modify]
    by_cases hj : id = j
    · subst hj
      cases hb.symm.trans hc
      exact ⟨{ b with allocated := tiles }, by simp [hb], rfl, Or.inr ⟨hlt, hs⟩⟩
    · exact ⟨c, by simp [hj, hc], .refl c config⟩
  untouched := by
    intro j hj
    have hne : ¬ id = j := fun h => hj (List.mem_singleton.2 h.symm)
    simp only [setAllocated, Table.get?_modify, if_neg hne]

/-- A log is replayed in two stretches. -/
theorem replay_append (e : Epoch) (log log' : List GrowthStep) :
    e.replay (log ++ log') = (e.replay log).replay log' := List.foldl_append

end Epoch

/-! ## Candidates and the buffers they show -/

namespace Relay

/-- The candidate has the sizes and the allocation of a buffer. -/
structure Candidate.Shows (c : Candidate) (config : Config) (b : Buffer) : Prop where
  sizes : c.sizes = b.sizes config
  tileBytes : c.tileBytes = b.tileBytes.toNat
  allocated : c.allocated = b.allocated.toNat

/-- A valid size above the allocation is a word above that of the buffer. -/
theorem Candidate.Shows.word {c : Candidate} {config : Config} {b : Buffer} (h : c.Shows config b)
    {t : Nat} (ht : t ∈ c.sizes) (hlt : c.allocated < t) :
    (UInt64.ofNat t).toNat = t ∧ b.allocated < UInt64.ofNat t := by
  have hword : (UInt64.ofNat t).toNat = t :=
    UInt64.toNat_ofNat_of_lt' (Buffer.lt_size_of_mem_sizes (h.sizes ▸ ht))
  refine ⟨hword, ?_⟩
  rw [UInt64.lt_iff_toNat_lt, hword, ← h.allocated]
  exact hlt

/-- Moving the buffer that a candidate shows to one of its valid sizes is growth. -/
theorem Candidate.Shows.grows {c : Candidate} {config : Config} {b : Buffer}
    (h : c.Shows config b) {e : Epoch} (hb : e.buffers.get? c.id = some b) {t : Nat}
    (ht : t ∈ c.sizes) (hlt : c.allocated < t) :
    e.Grows config [c.id] (e.setAllocated c.id (UInt64.ofNat t)) := by
  obtain ⟨hword, hmove⟩ := h.word ht hlt
  refine Epoch.setAllocated_grows hb hmove ?_
  rw [hword, ← h.sizes]
  exact ht

/-- Each candidate shows a stored buffer of its own. -/
structure Growth.Mirrors {σ : Type} (g : Growth σ) (config : Config) (e : Epoch) : Prop where
  nodup : (g.cands.map (·.id)).Nodup
  stored : ∀ c ∈ g.cands, ∃ b, e.buffers.get? c.id = some b ∧ c.Shows config b

namespace Growth

variable {σ : Type} [ResourceModel σ] {g g' : Growth σ} {config : Config} {e : Epoch}

omit [ResourceModel σ] in
/-- Settling an attempt keeps the ids of the candidates. -/
theorem ids_settle {i : Nat} {c : Candidate} (hc : g.cands[i]? = some c)
    (r : Option GrowthStep × σ) : (g.settle i c r).cands.map (·.id) = g.cands.map (·.id) := by
  have hid : (c.after r.1).id = c.id := by cases r.1 <;> rfl
  apply List.ext_getElem?
  intro j
  rw [settle, List.getElem?_map, List.getElem?_map, List.getElem?_set]
  by_cases hij : i = j
  · subst hij
    obtain ⟨hi, _⟩ := List.getElem?_eq_some_iff.1 hc
    rw [if_pos rfl, if_pos hi, hc, Option.map_some, Option.map_some, hid]
  · rw [if_neg hij]

omit [ResourceModel σ] in
/-- Another candidate than the one at position `i` has another id. -/
theorem Mirrors.id_ne (h : g.Mirrors config e) {i j : Nat} {c d : Candidate}
    (hc : g.cands[i]? = some c) (hd : g.cands[j]? = some d) (hij : i ≠ j) : c.id ≠ d.id := by
  intro heq
  have hi : (g.cands.map (·.id))[i]? = (g.cands.map (·.id))[j]? := by
    rw [List.getElem?_map, List.getElem?_map, hc, hd, Option.map_some, Option.map_some, heq]
  have hlt : i < (g.cands.map (·.id)).length := by
    rw [List.length_map]
    exact (List.getElem?_eq_some_iff.1 hc).1
  exact hij ((List.getElem?_inj hlt h.nodup).1 hi)

omit [ResourceModel σ] in
/-- After a move the candidate shows the grown buffer, and the others show what they showed. -/
theorem Mirrors.stored_set (h : g.Mirrors config e) {i : Nat} {c : Candidate}
    (hc : g.cands[i]? = some c) {t : Nat} (ht : t ∈ c.sizes) (hlt : c.allocated < t)
    {d : Candidate} (hd : d ∈ g.cands.set i { c with allocated := t }) :
    ∃ b, (e.setAllocated c.id (UInt64.ofNat t)).buffers.get? d.id = some b ∧ d.Shows config b := by
  obtain ⟨b, hb, hs⟩ := h.stored c (List.mem_of_getElem? hc)
  obtain ⟨j, hj⟩ := List.mem_iff_getElem?.1 hd
  rw [List.getElem?_set] at hj
  by_cases hij : i = j
  · obtain ⟨hi, _⟩ := List.getElem?_eq_some_iff.1 hc
    rw [if_pos hij, if_pos hi, Option.some.injEq] at hj
    subst hj
    refine ⟨{ b with allocated := UInt64.ofNat t }, ?_, hs.sizes, hs.tileBytes, ?_⟩
    · change (e.buffers.modify c.id _).get? c.id = _
      rw [Table.get?_modify, if_pos rfl, hb, Option.map_some]
    · exact (hs.word ht hlt).1.symm
  · rw [if_neg hij] at hj
    obtain ⟨b', hb', hs'⟩ := h.stored d (List.mem_of_getElem? hj)
    have hne : d.id ∉ [c.id] := by
      rw [List.mem_singleton]
      exact (h.id_ne hc hj hij).symm
    exact ⟨b', ((hs.grows hb ht hlt).untouched d.id hne).trans hb', hs'⟩

/-- An attempt keeps the candidates in step with the epoch, which grows. -/
theorem Mirrors.attempt (h : g.Mirrors config e) {i : Nat} {c : Candidate}
    {r : Option GrowthStep × σ} (hc : g.cands[i]? = some c) (hr : c.Attempt g.model r) :
    (g.settle i c r).Mirrors config (e.replay r.1.toList) ∧
      e.Grows config (g.cands.map (·.id)) (e.replay r.1.toList) := by
  have hmem : c ∈ g.cands := List.mem_of_getElem? hc
  have hnodup : ((g.settle i c r).cands.map (·.id)).Nodup := ids_settle hc r ▸ h.nodup
  obtain ⟨b, hb, hs⟩ := h.stored c hmem
  cases hstep : r.1 with
  | none =>
    refine ⟨⟨hnodup, fun d hd => ?_⟩, .refl e config _⟩
    rw [settle, hstep] at hd
    rcases List.mem_or_eq_of_mem_set hd with hd | rfl
    · exact h.stored d hd
    · exact ⟨b, hb, hs.sizes, hs.tileBytes, hs.allocated⟩
  | some s =>
    obtain ⟨heq, ht, hlt⟩ := hr.step_eq hstep
    have hreplay : e.replay (some s).toList = e.setAllocated c.id (UInt64.ofNat s.after) := by
      rw [heq]
      rfl
    rw [hreplay]
    refine ⟨⟨hnodup, fun d hd => ?_⟩, (hs.grows hb ht hlt).mono ?_⟩
    · rw [settle, hstep] at hd
      exact h.stored_set hc ht hlt hd
    · intro id hid
      rw [List.mem_singleton.1 hid]
      exact List.mem_map.2 ⟨c, hmem, rfl⟩

/-- Over a whole history the candidates stay in step with the epoch, which grows. -/
theorem History.mirrors (h : History g g') (hm : g.Mirrors config (e.replay g.log)) :
    g'.Mirrors config (e.replay g'.log) ∧
      (e.replay g.log).Grows config (g.cands.map (·.id)) (e.replay g'.log) ∧
      g'.cands.map (·.id) = g.cands.map (·.id) := by
  apply h.invariant (P := fun g' => g'.Mirrors config (e.replay g'.log) ∧
    (e.replay g.log).Grows config (g.cands.map (·.id)) (e.replay g'.log) ∧
    g'.cands.map (·.id) = g.cands.map (·.id))
  · exact ⟨hm, .refl _ config _, rfl⟩
  · rintro g₁ i c r ⟨hm₁, hg₁, hids⟩ hc hr
    obtain ⟨hm₂, hg₂⟩ := hm₁.attempt hc hr
    have hlog : e.replay (g₁.settle i c r).log = (e.replay g₁.log).replay r.1.toList :=
      e.replay_append g₁.log r.1.toList
    rw [hlog]
    refine ⟨hm₂, (hg₁.trans hg₂).mono ?_, (ids_settle hc r).trans hids⟩
    rw [hids]
    exact List.append_subset.2 ⟨List.Subset.refl _, List.Subset.refl _⟩

end Growth

/-- A buffer as a candidate. -/
def Candidate.ofBuffer (config : Config) (core : Core) (id : BufferId) (b : Buffer) : Candidate :=
  { id, core
    sizes := b.sizes config
    tileBytes := b.tileBytes.toNat
    granule := b.granule.toNat
    allocated := b.allocated.toNat }

end Relay

namespace Epoch

variable {σ : Type} [ResourceModel σ] {e : Epoch} {config : Config} {core : Core}

omit [ResourceModel σ] in
/-- Every stored buffer of positive tile size is a candidate. -/
theorem candidate_eq_ok {id : BufferId} {c : Candidate} :
    e.candidate config core id = .ok c ↔ ∃ b, e.buffers.get? id = some b ∧ b.tileBytes ≠ 0 ∧
      c = .ofBuffer config core id b := by
  rw [candidate, bind_eq_ok, buffer]
  cases hb : e.buffers.get? id with
  | none => simp [reject]
  | some b =>
    simp only [Except.ok.injEq, Option.some.injEq, exists_eq_left']
    by_cases ht : b.tileBytes = 0
    · simp [ht, fault, bind, Except.bind]
    · simp only [ht, ite_false, ne_eq, not_false_eq_true, true_and]
      exact pure_eq_ok.trans eq_comm

omit [ResourceModel σ] in
/-- Candidates read from the epoch show what it stores. -/
theorem mirrors_candidates {ids : List BufferId} {cands : List Candidate} (hids : ids.Nodup)
    (h : ids.mapM (e.candidate config core) = .ok cands) (aim : Candidate → Nat) (m : σ) :
    (⟨cands.map fun c => { c with target := aim c }, m, []⟩ : Growth σ).Mirrors config e ∧
      cands.map (·.id) = ids := by
  have hc := (mapM_eq_ok.1 h).imp fun _ _ hc => candidate_eq_ok.1 hc
  have hmap : ids = cands.map (·.id) := by
    rw [← List.map_id ids]
    refine map_eq_map_of_forall₂ (hc.imp ?_)
    rintro id c ⟨b, _, _, rfl⟩
    rfl
  refine ⟨⟨?_, ?_⟩, hmap.symm⟩
  · rw [List.map_map]
    exact hmap ▸ hids
  · intro d hd
    obtain ⟨c, hcm, rfl⟩ := List.mem_map.1 hd
    obtain ⟨id, _, b, hb, _, rfl⟩ := exists_left_of_forall₂ hc hcm
    exact ⟨b, hb, rfl, rfl, rfl⟩

/-- On one core, whatever the outcome, only the listed buffers grow. -/
theorem upsizeCore_grows (e : Epoch) (config : Config) (core : Core) {ids : List BufferId}
    (hids : ids.Nodup) (m : σ) :
    e.Grows config ids (e.upsizeCore config core ids m).2.1 := by
  unfold upsizeCore
  split
  · exact .refl e config ids
  · rename_i cands hc
    obtain ⟨aim, hist⟩ := Growth.run_history config.strategy core cands m
    obtain ⟨hm, hmap⟩ := mirrors_candidates hids hc aim m
    obtain ⟨_, hg, _⟩ := hist.mirrors hm
    rw [List.map_map] at hg
    exact hmap ▸ hg

private theorem upsizeCores_grows {groups : List (Core × List BufferId)}
    (hids : (groups.flatMap (·.2)).Nodup) (r : UpsizeReport) (m : σ) :
    e.Grows config (groups.flatMap (·.2)) (upsizeCores config groups r e m).2.1 := by
  induction groups generalizing r e m with
  | nil => exact .refl e config []
  | cons group groups ih =>
    obtain ⟨core, ids⟩ := group
    rw [List.flatMap_cons, List.nodup_append] at hids
    obtain ⟨hhere, hrest, _⟩ := hids
    have hg := upsizeCore_grows e config core hhere m
    rw [List.flatMap_cons, upsizeCores]
    split
    · rename_i heq
      rw [heq] at hg
      exact hg.mono (List.subset_append_left ..)
    · rename_i heq
      rw [heq] at hg
      exact hg.trans (ih hrest ..)

/-- Whatever the outcome, upsizing grows the buffers that may grow and changes nothing else. -/
theorem upsize_grows (hk : e.WellKeyed) (config : Config) (m : σ) :
    e.Grows config ((e.growing config).map (·.id)) (e.upsize config m).2.1 := by
  unfold upsize
  split
  · exact .refl e config _
  · rename_i groups hgroups
    have hgrouping := relayBuffers_grouping hgroups
    refine (upsizeCores_grows (hgrouping.nodup_ids (hk.filed config)) {} m).mono fun id hid => ?_
    exact List.mem_map.2 (hgrouping.mem_ids_iff.1 hid)

/-- A listed id is that of a buffer that may grow. -/
theorem mem_growing_ids (hk : e.WellKeyed) {id : BufferId} {b : Buffer}
    (hb : e.buffers.get? id = some b) :
    id ∈ (e.growing config).map (·.id) ↔ e.mayGrow config b = true := by
  obtain ⟨hm, rfl⟩ := hk.buffers.get?_eq_some_iff.1 hb
  rw [List.mem_map]
  constructor
  · rintro ⟨b', hb', hid⟩
    obtain ⟨hm', hgrow⟩ := mem_growing.1 hb'
    rw [← hid, hk.buffers.get?_key hm'] at hb
    cases hb
    exact hgrow
  · intro hgrow
    exact ⟨b, mem_growing.2 ⟨hm, hgrow⟩, rfl⟩

/-- A successful run has checked every buffer that may grow. -/
theorem check_of_upsize {m m' : σ} {report : UpsizeReport} {e' : Epoch}
    (h : e.upsize config m = (.ok report, e', m')) : ∀ b ∈ e.growing config, b.check = .ok () := by
  rw [upsize] at h
  split at h
  · cases h
  · rename_i groups hgroups
    exact (relayBuffers_grouping hgroups).sound

/-- Whatever the resource model answers, upsizing changes nothing but the allocation of relay
buffers in L1, on ethernet cores if only these may grow. Such a buffer keeps its allocation, or
ends strictly larger at a multiple of its granule from the second on that divides the useful tiles.
So it keeps whole granules, although every divisor of the granule is among its valid sizes. -/
theorem upsize_growth_shape {m m' : σ} {report : UpsizeReport} {e' : Epoch} (hk : e.WellKeyed)
    (h : e.upsize config m = (.ok report, e', m')) :
    (e'.index = e.index ∧ e'.device = e.device ∧ e'.ops = e.ops ∧ e'.pipes = e.pipes ∧
      e'.buffers.keys = e.buffers.keys) ∧
    ∀ id b, e.buffers.get? id = some b → ∃ b', e'.buffers.get? id = some b' ∧
      b' = { b with allocated := b'.allocated } ∧
      (e.mayGrow config b = false → b' = b) ∧
      (e.mayGrow config b = true →
        (b'.allocated = b.allocated ∨ b.allocated < b'.allocated ∧
          ∃ k, 2 ≤ k ∧ b'.allocated.toNat = k * b.granule.toNat ∧
            b'.allocated.toNat ∣ b.usefulTiles config ∧
            b'.allocated.toNat ≤ b.usefulTiles config) ∧
        0 < b'.allocated.toNat ∧ b.granule.toNat ∣ b'.allocated.toNat ∧
        ∀ d, 1 < d → d ∣ b.granule.toNat → d ∈ b.sizes config) := by
  have hg := upsize_grows hk config m
  rw [h] at hg
  refine ⟨⟨hg.index, hg.device, hg.ops, hg.pipes, hg.keys⟩, fun id b hb => ?_⟩
  obtain ⟨b', hb', hgrow⟩ := hg.buffer id b hb
  refine ⟨b', hb', hgrow.same, fun hstay => ?_, fun hmay => ?_⟩
  · have hid : id ∉ (e.growing config).map (·.id) := by
      rw [mem_growing_ids hk hb, hstay]
      exact Bool.false_ne_true
    have heq := hg.untouched id hid
    rw [hb, hb'] at heq
    exact Option.some.inj heq
  · have hcheck : b.check = .ok () :=
      check_of_upsize h b (mem_growing.2 ⟨Table.mem_values_of_get? hb, hmay⟩)
    have hl1 : b.usesL1 = true := by
      simp only [mayGrow, Bool.and_eq_true] at hmay
      exact hmay.1.2
    obtain ⟨hpos, _, hwhole⟩ := Buffer.check_eq_ok_iff.1 hcheck
    obtain ⟨hallocated, hdvd⟩ := hwhole hl1
    have hmultiple := hgrow.multiple hcheck hl1
    refine ⟨hmultiple, hallocated.trans_le hgrow.le, ?_, fun d hd hdg => ?_⟩
    · rcases hmultiple with heq | ⟨_, k, _, hk, _⟩
      · exact heq ▸ hdvd
      · exact hk ▸ Nat.dvd_mul_left ..
    · exact mem_validSizes.2 ⟨hpos, Or.inl ⟨hd, hdg⟩⟩

/-- Two relay buffers and an op output that share a core. -/
def sharedCore : Epoch where
  index := 0
  device := { gridX := 4, gridY := 4, ethernet := [], l1Bytes := 200, reservedBytes := 20 }
  ops := .empty
  buffers := .ofList [
    (⟨1⟩, ⟨⟨1⟩, .relay, ⟨0, 1, 1⟩, none, none, 10, 2, 24, 2⟩),
    (⟨2⟩, ⟨⟨2⟩, .relay, ⟨0, 1, 1⟩, none, none, 5, 3, 18, 6⟩),
    (⟨3⟩, ⟨⟨3⟩, .opOutput, ⟨0, 1, 1⟩, none, none, 4, 1, 18, 2⟩)]
  pipes := .empty

/-- With 60 bytes left both relay buffers grow, to whole granules. -/
theorem upsize_growth_shape_sharedCore :
    sharedCore.WellKeyed ∧
    (sharedCore.upsize { strategy := .proportional } (Ledger.empty 60)).1 =
      .ok ⟨[⟨⟨1⟩, ⟨0, 1, 1⟩, 4, 40⟩, ⟨⟨2⟩, ⟨0, 1, 1⟩, 3, 15⟩], [(⟨0, 1, 1⟩, 5)]⟩ ∧
    ∃ b', (sharedCore.upsize { strategy := .proportional } (Ledger.empty 60)).2.1.buffers.get? ⟨2⟩ =
      some b' ∧ 0 < b'.allocated.toNat ∧ 3 ∣ b'.allocated.toNat := by
  have hk : sharedCore.WellKeyed := by decide
  have hok : (sharedCore.upsize { strategy := .proportional } (Ledger.empty 60)).1 =
      .ok ⟨[⟨⟨1⟩, ⟨0, 1, 1⟩, 4, 40⟩, ⟨⟨2⟩, ⟨0, 1, 1⟩, 3, 15⟩], [(⟨0, 1, 1⟩, 5)]⟩ := by cbv
  have hshape := upsize_growth_shape hk (Prod.ext hok rfl)
  obtain ⟨b', hb', _, _, hgrow⟩ := hshape.2 ⟨2⟩ _ rfl
  obtain ⟨_, hpos, hdvd, _⟩ := hgrow (by decide)
  exact ⟨hk, hok, b', hb', hpos, hdvd⟩

end Epoch

end TorusRouting
