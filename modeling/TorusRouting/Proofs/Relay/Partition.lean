import Mathlib.Algebra.Order.Field.Rat
import TorusRouting.Proofs.Relay.Grouping

/-!
# The order of cores and buffers

Grouping stops at the first buffer that is not sound. Otherwise the cores stand in the order of
their first buffers, and on each core the buffers are sorted by utilization, the exact ratio of
allocation and granule, with ties in table order. Cross multiplication compares these ratios because
a sound buffer has a positive granule; without that it would not even be transitive.
-/

namespace TorusRouting

/-- Granules allocated for the buffer. -/
def Buffer.utilization (b : Buffer) : ℚ := b.allocated.toNat / b.granule.toNat

private theorem Buffer.granule_pos {b : Buffer} (h : b.check = .ok ()) : 0 < b.granule.toNat := by
  refine Nat.pos_of_ne_zero fun hzero => ?_
  rw [check, if_pos (UInt64.toNat_inj.1 hzero)] at h
  cases h

/-- An unsound buffer is an error, never a fault. -/
theorem Buffer.exists_reject {b : Buffer} {f : Failure} (h : b.check = .error f) :
    ∃ x, f = .error x := by
  unfold check at h
  split_ifs at h <;> cases h <;> exact ⟨_, rfl⟩

namespace Epoch

variable {e : Epoch} {config : Config} {a b : Buffer} {l : List Buffer}
  {cores t : Table Core (List BufferId)}

/-- With positive granules, cross multiplication compares utilizations. -/
theorem lessUtilized_iff (ha : 0 < a.granule.toNat) (hb : 0 < b.granule.toNat) :
    lessUtilized a b = true ↔ a.utilization < b.utilization := by
  rw [Buffer.utilization, Buffer.utilization,
    div_lt_div_iff₀ (by exact_mod_cast ha) (by exact_mod_cast hb), lessUtilized, decide_eq_true_eq]
  norm_cast

/-- Grouping fails with the error of the first unsound buffer. -/
theorem groupByCore_eq_error {f : Failure} : groupByCore l cores = .error f ↔
    ∃ before b after, l = before ++ b :: after ∧ (∀ c ∈ before, c.check = .ok ()) ∧
      b.check = .error f := by
  induction l generalizing cores with
  | nil => simp [groupByCore]
  | cons b l ih =>
    rw [groupByCore, bind_eq_error, ih]
    constructor
    · rintro (h | ⟨⟨⟩, hb, before, c, after, rfl, hbefore, hc⟩)
      · exact ⟨[], b, l, rfl, by simp, h⟩
      · exact ⟨b :: before, c, after, rfl, List.forall_mem_cons.2 ⟨hb, hbefore⟩, hc⟩
    · rintro ⟨before, c, after, hl, hbefore, hc⟩
      cases before with
      | nil =>
        cases hl
        exact Or.inl hc
      | cons b' before =>
        cases hl
        obtain ⟨hb, hbefore⟩ := List.forall_mem_cons.1 hbefore
        exact Or.inr ⟨(), hb, before, c, after, rfl, hbefore, hc⟩

/-- New cores are listed in the order of their first buffers. -/
theorem groupByCore_keys (h : groupByCore l cores = .ok t) :
    t.keys = cores.keys ++ ((l.map (·.core)).filter (· ∉ cores.keys)).eraseDups := by
  induction l generalizing cores with
  | nil =>
    cases h
    simp
  | cons b l ih =>
    obtain ⟨⟨⟩, _, h⟩ := bind_eq_ok.1 h
    rw [ih h, Table.keys_insert, List.map_cons, List.filter_cons]
    by_cases hb : b.core ∈ cores.keys
    · simp [hb]
    · have hrest (c : Core) : decide (c ∉ cores.keys ++ [b.core]) =
          (!(c == b.core) && decide (c ∉ cores.keys)) := by
        by_cases hc : c = b.core <;> simp [hc]
      simp only [hb, not_false_eq_true, decide_true, if_true, if_false, List.eraseDups_cons,
        List.filter_filter, hrest, List.append_assoc, List.singleton_append]

/-- The ids of stored buffers are ordered by sorting the buffers. -/
theorem byUtilization_eq (h : ∀ b ∈ l, e.buffers.get? b.id = some b) :
    e.byUtilization (l.map (·.id)) = .ok ((stableSort lessUtilized l).map (·.id)) := by
  unfold byUtilization
  split
  · rename_i hlength
    cases l with
    | nil => rfl
    | cons b l =>
      cases l with
      | nil => rfl
      | cons c l => simp at hlength
  · have hstored : (l.map (·.id)).mapM (fun id => do return (id, ← e.storedBuffer id)) =
        .ok (l.map fun b => (b.id, b)) := by
      rw [mapM_eq_ok, List.forall₂_map_left_iff, List.forall₂_map_right_iff, List.forall₂_same]
      intro b hb
      rw [storedBuffer, h b hb]
      rfl
    rw [hstored]
    change Except.ok _ = Except.ok _
    rw [stableSort_map, List.map_map]
    rfl

/-- Buffer `i` is less utilized than `j`, or as much and stored before it. -/
def Precedes (e : Epoch) (i j : BufferId) : Prop :=
  ∃ a b, e.buffers.get? i = some a ∧ e.buffers.get? j = some b ∧
    (a.utilization < b.utilization ∨
      a.utilization = b.utilization ∧ [i, j].Sublist e.buffers.keys)

/-- What a grouping of the relay buffers by core has to be, down to its order. -/
structure Partitions (e : Epoch) (config : Config) (groups : List (Core × List BufferId)) :
    Prop where
  /-- The cores stand in the order of their first buffers that may grow. -/
  cores : groups.map (·.1) = ((e.growing config).map (·.core)).eraseDups
  /-- A core lists exactly the relay buffers that occupy its L1. When only ethernet cores count, it
  is one of them. -/
  listed : ∀ core id, (∃ ids, (core, ids) ∈ groups ∧ id ∈ ids) ↔
    ∃ b, e.buffers.get? id = some b ∧ b.core = core ∧ b.kind = .relay ∧ b.usesL1 = true ∧
      (config.ethernetOnly = true → e.device.isEthernetCore core = true)
  /-- No buffer is listed twice. -/
  once : (groups.flatMap (·.2)).Nodup
  /-- The buffers of a core ascend by utilization; equally utilized ones stand in table order. -/
  sorted : ∀ g ∈ groups, g.2.Pairwise e.Precedes

/-- The growing buffers of a core are sorted by utilization. -/
theorem byUtilization_sorted (hk : e.Filed config) (hl : l.Sublist (e.growing config))
    (hsound : ∀ b ∈ l, b.check = .ok ()) {ids : List BufferId}
    (h : e.byUtilization (l.map (·.id)) = .ok ids) : ids.Pairwise e.Precedes := by
  have hstored : ∀ b ∈ l, e.buffers.get? b.id = some b := fun b hb => hk.get? (hl.subset hb)
  have horder : l.Pairwise fun a b => [a.id, b.id].Sublist e.buffers.keys := by
    rw [List.pairwise_iff_forall_sublist]
    intro a b hab
    exact ((hab.trans hl).map (·.id)).trans hk.sublist
  have hless : ∀ a ∈ l, ∀ b ∈ l, lessUtilized a b = true ↔ a.utilization < b.utilization :=
    fun a ha b hb =>
      lessUtilized_iff (Buffer.granule_pos (hsound a ha)) (Buffer.granule_pos (hsound b hb))
  have hsorted := stableSort_pairwise hless horder
  rw [byUtilization_eq hstored] at h
  cases h
  rw [List.pairwise_map]
  refine hsorted.imp_of_mem fun ha hb hab => ?_
  have hmem {b : Buffer} := (stableSort_perm lessUtilized l).mem_iff (a := b)
  exact ⟨_, _, hstored _ (hmem.1 ha), hstored _ (hmem.1 hb), hab⟩

private theorem mayGrow_iff : e.mayGrow config b = true ↔ b.kind = .relay ∧ b.usesL1 = true ∧
    (config.ethernetOnly = true → e.device.isEthernetCore b.core = true) := by
  cases hd : config.ethernetOnly <;> simp [mayGrow, hd, and_assoc]

private theorem relayBuffers_partitions (hk : e.WellKeyed) {groups : List (Core × List BufferId)}
    (h : e.relayBuffers config = .ok groups) : e.Partitions config groups := by
  have hfiled := hk.filed config
  have hg := relayBuffers_grouping h
  obtain ⟨t, ht, hentries⟩ := relayBuffers_eq_ok h
  refine ⟨?_, fun core id => ?_, hg.nodup_ids hfiled, fun g hgroup => ?_⟩
  · have hkeys : t.keys = groups.map (·.1) :=
      map_eq_map_of_forall₂ (hentries.imp fun _ _ hp => hp.1)
    rw [← hkeys, groupByCore_keys ht]
    simp [Table.keys]
  · constructor
    · rintro ⟨ids, hgroup, hid⟩
      obtain ⟨b, hb, hstored, hcore⟩ := hg.stored hfiled hgroup hid
      cases hcore
      exact ⟨b, hstored, rfl, mayGrow_iff.1 (mem_growing.1 hb).2⟩
    · rintro ⟨b, hstored, rfl, hgrow⟩
      have hb : b ∈ e.growing config :=
        mem_growing.2 ⟨Table.mem_values_of_get? hstored, mayGrow_iff.2 hgrow⟩
      obtain ⟨⟨core, ids⟩, hgroup, hcore⟩ := List.mem_map.1 (hg.covers b hb)
      cases hcore
      have hid : b.id = id := ((hk.buffers.get?_eq_some_iff).1 hstored).2
      exact ⟨ids, hgroup, (hg.mem_group_iff hgroup).2 ⟨b, hb, rfl, hid⟩⟩
  · obtain ⟨entry, he, _, hids⟩ := exists_left_of_forall₂ hentries hgroup
    rw [groupByCore_entry ht he] at hids
    refine byUtilization_sorted hfiled List.filter_sublist (fun b hb => ?_) hids
    exact hg.sound b (List.mem_filter.1 hb).1

/-! ## The comparison -/

/-- The product of two words, in twice their width. -/
def wideMul (a b : UInt64) : BitVec 128 :=
  a.toBitVec.setWidth 128 * b.toBitVec.setWidth 128

/-- The product does not overflow. -/
theorem toNat_wideMul (a b : UInt64) : (wideMul a b).toNat = a.toNat * b.toNat := by
  have hwide (w : UInt64) : (w.toBitVec.setWidth 128).toNat = w.toNat := by
    have hw := w.toNat_lt
    rw [BitVec.toNat_setWidth, UInt64.toNat_toBitVec]
    omega
  have hproduct := Nat.mul_lt_mul'' a.toNat_lt b.toNat_lt
  rw [wideMul, BitVec.toNat_mul, hwide, hwide]
  exact Nat.mod_eq_of_lt (by omega)

private theorem lessUtilized_eq_wideMul (a b : Buffer) : lessUtilized a b =
    (wideMul a.allocated b.granule).ult (wideMul b.allocated a.granule) := by
  rw [BitVec.ult, toNat_wideMul, toNat_wideMul]
  rfl

/-- By the comparison, `b` is not allocated fewer granules than `a`. -/
def NoMoreUtilized (a b : { b : Buffer // 0 < b.granule.toNat }) : Prop :=
  lessUtilized b.1 a.1 = false

private theorem noMoreUtilized_iff {a b : { b : Buffer // 0 < b.granule.toNat }} :
    NoMoreUtilized a b ↔ a.1.utilization ≤ b.1.utilization := by
  rw [NoMoreUtilized, ← not_lt, ← lessUtilized_iff b.2 a.2, Bool.not_eq_true]

/-- Grouping the relay buffers of a well-keyed epoch fails with the error of the first one that is
not sound, or partitions them in order. With positive granules the comparison of utilizations is
exact and a total preorder. For all words its products fit twice the width of a word. -/
theorem relayBuffers_ordered_partition (hk : e.WellKeyed) (config : Config) :
    ((∃ before b after x, e.growing config = before ++ b :: after ∧
        (∀ c ∈ before, c.check = .ok ()) ∧ b.check = reject x ∧
        e.relayBuffers config = reject x) ∨
      (∀ b ∈ e.growing config, b.check = .ok ()) ∧
        ∃ groups, e.relayBuffers config = .ok groups ∧ e.Partitions config groups) ∧
      (∀ a b : Buffer, 0 < a.granule.toNat → 0 < b.granule.toNat →
        (lessUtilized a b = true ↔ a.utilization < b.utilization)) ∧
      IsPreorder _ NoMoreUtilized ∧ Std.Total NoMoreUtilized ∧
      ∀ a b : Buffer,
        (wideMul a.allocated b.granule).toNat = a.allocated.toNat * b.granule.toNat ∧
          lessUtilized a b =
            (wideMul a.allocated b.granule).ult (wideMul b.allocated a.granule) := by
  refine ⟨?_, fun a b => lessUtilized_iff, ?_, ?_, fun a b =>
    ⟨toNat_wideMul .., lessUtilized_eq_wideMul a b⟩⟩
  · cases hg : groupByCore (e.growing config) .empty with
    | error f =>
      obtain ⟨before, b, after, hsplit, hbefore, hb⟩ := groupByCore_eq_error.1 hg
      obtain ⟨x, rfl⟩ := Buffer.exists_reject hb
      exact Or.inl ⟨before, b, after, x, hsplit, hbefore, hb, bind_eq_error.2 (Or.inl hg)⟩
    | ok t =>
      have hsound := groupByCore_eq_ok_iff.1 ⟨t, hg⟩
      obtain ⟨groups, hgroups⟩ := exists_relayBuffers (hk.filed config) hsound
      exact Or.inr ⟨hsound, groups, hgroups, relayBuffers_partitions hk hgroups⟩
  · exact { refl a := noMoreUtilized_iff.2 le_rfl
            trans a b c hab hbc :=
              noMoreUtilized_iff.2 ((noMoreUtilized_iff.1 hab).trans (noMoreUtilized_iff.1 hbc)) }
  · exact ⟨fun a b => (le_total a.1.utilization b.1.utilization).imp noMoreUtilized_iff.2
      noMoreUtilized_iff.2⟩

/-- Relay buffers on two cores, with one that is not a relay between them. Buffers `1` and `4` are
equally utilized. -/
def mixedRelays : Epoch where
  index := 0
  device := { gridX := 4, gridY := 4, ethernet := [], l1Bytes := 4096, reservedBytes := 0 }
  ops := .empty
  buffers := .ofList [
    (⟨1⟩, ⟨⟨1⟩, .relay, ⟨0, 1, 1⟩, none, none, 16, 2, 8, 4⟩),
    (⟨2⟩, ⟨⟨2⟩, .relay, ⟨0, 0, 0⟩, none, none, 16, 1, 8, 8⟩),
    (⟨5⟩, ⟨⟨5⟩, .prologInter, ⟨0, 1, 1⟩, none, none, 16, 1, 8, 1⟩),
    (⟨4⟩, ⟨⟨4⟩, .relay, ⟨0, 1, 1⟩, none, none, 16, 3, 8, 6⟩),
    (⟨3⟩, ⟨⟨3⟩, .relay, ⟨0, 1, 1⟩, none, none, 16, 3, 8, 3⟩)]
  pipes := .empty

/-- Four relay buffers on two cores, ordered by their utilization on each. -/
theorem relayBuffers_ordered_partition_mixedRelays :
    mixedRelays.WellKeyed ∧
      mixedRelays.relayBuffers {} = .ok [(⟨0, 1, 1⟩, [⟨3⟩, ⟨1⟩, ⟨4⟩]), (⟨0, 0, 0⟩, [⟨2⟩])] ∧
      mixedRelays.Partitions {} [(⟨0, 1, 1⟩, [⟨3⟩, ⟨1⟩, ⟨4⟩]), (⟨0, 0, 0⟩, [⟨2⟩])] := by
  have hk : mixedRelays.WellKeyed := by decide
  have hgroups : mixedRelays.relayBuffers {} =
      .ok [(⟨0, 1, 1⟩, [⟨3⟩, ⟨1⟩, ⟨4⟩]), (⟨0, 0, 0⟩, [⟨2⟩])] := by decide
  refine ⟨hk, hgroups, ?_⟩
  obtain ⟨⟨_, _, _, _, _, _, _, hfail⟩ | ⟨_, groups, hok, hparts⟩, _⟩ :=
    relayBuffers_ordered_partition hk {}
  · cases hgroups.symm.trans hfail
  · cases hgroups.symm.trans hok
    exact hparts

end Epoch

end TorusRouting
