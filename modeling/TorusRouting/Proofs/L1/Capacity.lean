import TorusRouting.Proofs.L1.Totals
import TorusRouting.Proofs.Routing.Frame

/-!
# The pass stays within the L1 of every core

The pass accounts for the epoch before it writes anything, and routing touches no buffer. So after
the pass the buffers of every core fit the budget, and the report tells the exact bytes left.
-/

namespace TorusRouting

/-- Among values with distinct keys, a key selects its value. -/
theorem filter_key_eq {α κ : Type} [DecidableEq κ] {key : α → κ} {l : List α}
    (h : (l.map key).Nodup) {a : α} (ha : a ∈ l) : l.filter (fun x => key x = key a) = [a] := by
  induction l with
  | nil => cases ha
  | cons b l ih =>
    rw [List.map_cons, List.nodup_cons] at h
    rcases List.mem_cons.1 ha with rfl | ha
    · have hrest : l.filter (fun x => key x = key a) = [] := by
        rw [List.filter_eq_nil_iff]
        intro x hx heq
        exact h.1 (List.mem_map.2 ⟨x, hx, of_decide_eq_true heq⟩)
      rw [List.filter_cons, if_pos (decide_eq_true rfl), hrest]
    · have hne : ¬ key b = key a := fun heq => h.1 (heq ▸ List.mem_map.2 ⟨a, ha, rfl⟩)
      rw [List.filter_cons_of_neg (by simpa using hne), ih h.2 ha]

namespace Epoch

variable {e e' : Epoch} {config : Config} {oracle : Oracle} {logging : Logging}
  {report : PassReport}

/-- A successful pass accounts for the epoch, routes it, and upsizes what routing left. A report
that was logged has a text. -/
theorem run_eq_ok (h : e.run config oracle logging = (.ok report, e')) :
    ∃ l e₁ l', Ledger.ofEpoch e = .ok l ∧ e.Rerouted e₁ ∧
      e₁.upsize config l = (.ok report.upsize, e', l') ∧
      (logging = .on → ∃ text, report.text = .ok text) := by
  rw [run] at h
  split at h
  · cases h
  · split at h
    · cases h
    · rename_i l hl
      have hroute := e.routeValid_rerouted config oracle
      unfold runValid at h
      rcases hr : e.routeValid config oracle with ⟨_ | routes, e₁⟩
      · rw [hr] at h
        cases h
      · rw [hr] at h hroute
        rcases hup : e₁.upsize config l with ⟨_ | upsize, e₂, l'⟩
        · simp only [hup] at h
          cases h
        · simp only [hup] at h
          obtain ⟨hlog, he⟩ := Prod.mk.inj h
          obtain ⟨rfl, htext⟩ := PassReport.log_eq_ok.1 hlog
          cases he
          exact ⟨l, e₁, l', hl, hroute, hup, htext⟩

/-- Routing decides nothing about which buffers may grow. -/
theorem Rerouted.growing_eq (h : e.Rerouted e') (config : Config) :
    e'.growing config = e.growing config := by
  have hmay : e'.mayGrow config = e.mayGrow config := by
    funext b
    rw [mayGrow, mayGrow, h.device]
  rw [growing, growing, hmay, h.buffers]

/-- Routing moves no buffer to another key. -/
theorem Rerouted.filed (h : e.Rerouted e') (hf : e.Filed config) :
    e'.Filed config := by
  intro entry hm hgrow
  rw [h.buffers] at hm
  rw [mayGrow, h.device] at hgrow
  exact hf entry hm hgrow

/-- Routing leaves the spare L1 as it is. -/
theorem Rerouted.spareL1_eq (h : e.Rerouted e') (config : Config) :
    e'.spareL1 config = e.spareL1 config := by
  rw [spareL1, spareL1, h.growing_eq, h.device]
  refine congrArg total (List.map_congr_left fun core _ => ?_)
  rw [usedL1, usedL1, h.buffers]

/-- After a successful pass the buffers of every core fit the budget, counted exactly. The bytes
reported as left on a core are what the budget exceeds that count by. Each buffer that may grow has
one row in the report, with the tiles it gained and their bytes. -/
theorem run_l1_exact (hk : e.WellKeyed) (hbudget : e.device.l1Budget.toNat < 2 ^ 64 - 1)
    (h : e.run config oracle logging = (.ok report, e')) :
    (∀ core, e'.usedL1 core ≤ e.device.l1Budget.toNat) ∧
    (∀ core bytes, (core, bytes) ∈ report.upsize.available →
      bytes.toNat + e'.usedL1 core = e.device.l1Budget.toNat) ∧
    ∀ b ∈ e.growing config, ∃ row b',
      report.upsize.buffers.filter (·.id = b.id) = [row] ∧
      e'.buffers.get? b.id = some b' ∧
      b'.allocated.toNat = b.allocated.toNat + row.tilesAdded ∧
      row.bytesAdded = row.tilesAdded * b.tileBytes.toNat := by
  obtain ⟨l, e₁, l', hl, hroute, hup, _⟩ := run_eq_ok h
  have haccounts := (Ledger.ofEpoch_accounts hl).congr hroute.device hroute.buffers
  obtain ⟨upsize, ids, e₂, l₂, heq, hupsized, hnodup, hids, havailable, _⟩ :=
    upsize_upsized config (hroute.wellKeyed hk) (check_of_upsize hup) haccounts
  cases hup.symm.trans heq
  have hdevice : e'.device = e.device := hupsized.grows.device.trans hroute.device
  have hexact := hupsized.accounts.usedL1_le (hdevice ▸ hbudget)
  rw [hdevice] at hexact
  refine ⟨fun core => (hexact core).1, fun core bytes hm => ?_, fun b hb => ?_⟩
  · have hbytes : bytes = l'.available core := havailable _ hm
    rw [hbytes]
    exact (hexact core).2
  · have hid : b.id ∈ report.upsize.buffers.map (·.id) := by
      rw [hupsized.ids, hids, hroute.growing_eq]
      exact ⟨b, hb, rfl⟩
    obtain ⟨row, hrow, hrowid⟩ := List.mem_map.1 hid
    obtain ⟨b₁, b', hb₁, hb', htiles, hbytes⟩ := hupsized.describes row hrow
    rw [hroute.buffers, hrowid, hk.buffers.get?_key (mem_growing.1 hb).1] at hb₁
    cases hb₁
    refine ⟨row, b', ?_, hrowid ▸ hb', htiles, hbytes⟩
    rw [← hrowid]
    exact filter_key_eq (hupsized.ids.symm ▸ hnodup) hrow

/-- Two relay buffers grow into the spare bytes of their core, and 7 of its 180 bytes are left. -/
theorem run_l1_exact_sharedCore :
    sharedCore.WellKeyed ∧ sharedCore.device.l1Budget.toNat < 2 ^ 64 - 1 ∧
    ∃ routes, (sharedCore.run {} (.constant none) .on).1 = .ok ⟨0, routes,
        ⟨[⟨⟨1⟩, ⟨0, 1, 1⟩, 10, 100⟩, ⟨⟨2⟩, ⟨0, 1, 1⟩, 3, 15⟩], [(⟨0, 1, 1⟩, 7)]⟩⟩ ∧
      7 + (sharedCore.run {} (.constant none) .on).2.usedL1 ⟨0, 1, 1⟩ =
        sharedCore.device.l1Budget.toNat := by
  have hk : sharedCore.WellKeyed := by decide
  have hbudget : sharedCore.device.l1Budget.toNat < 2 ^ 64 - 1 := by decide
  have hok : (sharedCore.run {} (.constant none) .on).1 = .ok ⟨0, default,
      ⟨[⟨⟨1⟩, ⟨0, 1, 1⟩, 10, 100⟩, ⟨⟨2⟩, ⟨0, 1, 1⟩, 3, 15⟩], [(⟨0, 1, 1⟩, 7)]⟩⟩ := by cbv
  obtain ⟨_, havailable, _⟩ := run_l1_exact hk hbudget (Prod.ext hok rfl)
  exact ⟨hk, hbudget, default, hok, havailable ⟨0, 1, 1⟩ 7 (List.mem_singleton.2 rfl)⟩

end Epoch

end TorusRouting
