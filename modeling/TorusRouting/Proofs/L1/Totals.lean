import TorusRouting.Pass
import TorusRouting.Proofs.L1.Upsizing

/-!
# Totals of a report

A report is written as text when its totals fit a word. What buffers gain comes out of the spare L1
of their cores, so the report of an epoch can be logged if all that spare L1 together fits a word.
-/

namespace TorusRouting

namespace PassReport

variable {r r' : PassReport} {logging : Logging}

/-- A report is written as text once its totals fit a word. -/
theorem exists_text (htiles : total (r.upsize.buffers.map (·.tilesAdded)) < UInt64.size)
    (hbytes : total (r.upsize.buffers.map (·.bytesAdded)) < UInt64.size) :
    ∃ text, r.text = .ok text := by
  rw [text, UpsizeReport.tilesAdded, UpsizeReport.bytesAdded, fit64, if_pos htiles, fit64,
    if_pos hbytes]
  exact ⟨_, rfl⟩

/-- A report whose bytes leave the word is not written. -/
theorem text_eq_fault (htiles : total (r.upsize.buffers.map (·.tilesAdded)) < UInt64.size)
    (hbytes : UInt64.size ≤ total (r.upsize.buffers.map (·.bytesAdded))) :
    r.text = fault .overflow := by
  rw [text, UpsizeReport.tilesAdded, UpsizeReport.bytesAdded, fit64, if_pos htiles, fit64,
    if_neg (Nat.not_lt.2 hbytes)]
  rfl

/-- Nothing else goes wrong with the text of a report. -/
theorem text_cases (r : PassReport) : (∃ text, r.text = .ok text) ∨ r.text = fault .overflow := by
  by_cases htiles : total (r.upsize.buffers.map (·.tilesAdded)) < UInt64.size
  · by_cases hbytes : total (r.upsize.buffers.map (·.bytesAdded)) < UInt64.size
    · exact .inl (exists_text htiles hbytes)
    · exact .inr (text_eq_fault htiles (Nat.not_lt.1 hbytes))
  · refine .inr ?_
    rw [text, UpsizeReport.tilesAdded, fit64, if_neg htiles]
    rfl

/-- Logging gives the report back, if a log can take its text. -/
theorem log_eq_ok : r.log logging = .ok r' ↔
    r' = r ∧ (logging = .on → ∃ text, r.text = .ok text) := by
  cases logging with
  | off =>
    constructor
    · intro h
      exact ⟨(pure_eq_ok.1 h).symm, fun hon => by cases hon⟩
    · rintro ⟨rfl, _⟩
      rfl
  | on =>
    rw [log, bind_eq_ok]
    constructor
    · rintro ⟨text, htext, h⟩
      exact ⟨(pure_eq_ok.1 h).symm, fun _ => ⟨text, htext⟩⟩
    · rintro ⟨rfl, h⟩
      obtain ⟨text, htext⟩ := h rfl
      exact ⟨text, htext, rfl⟩

/-- Logging gives the report back, or its totals leave the word. -/
theorem log_cases (r : PassReport) (logging : Logging) :
    r.log logging = .ok r ∨ r.log logging = fault .overflow := by
  rcases r.text_cases with htext | htext
  · exact .inl (log_eq_ok.2 ⟨rfl, fun _ => htext⟩)
  · cases logging with
    | off => exact .inl rfl
    | on =>
      refine .inr ?_
      rw [log, htext]
      rfl

end PassReport

namespace Epoch

variable {e : Epoch} {config : Config} {l : Ledger}

/-- The cores with growing buffers have no more spare L1 than as many empty cores as there are
buffers. -/
theorem spareL1_le (e : Epoch) (config : Config) :
    e.spareL1 config ≤ e.buffers.size * e.device.l1Budget.toNat := by
  have hlength : ((e.growing config).map (·.core)).dedup.length ≤ e.buffers.size := by
    calc ((e.growing config).map (·.core)).dedup.length
      _ ≤ ((e.growing config).map (·.core)).length := (List.dedup_sublist _).length_le
      _ = (e.growing config).length := List.length_map _
      _ ≤ e.buffers.values.length := List.length_filter_le ..
      _ = e.buffers.size := List.length_map _
  exact (total_map_le fun _ _ => Nat.sub_le ..).trans (Nat.mul_le_mul_right _ hlength)

/-- The report of an upsizing can be written if the spare L1 fits a word. Each tile has a byte, so
there are no more tiles than bytes. -/
theorem exists_text_of_upsize (hk : e.Filed config)
    (hs : ∀ b ∈ e.growing config, b.check = .ok ()) (hl : l.Accounts e)
    (hspare : e.spareL1 config < UInt64.size) {report : PassReport} {e' : Epoch} {l' : Ledger}
    (h : e.upsize config l = (.ok report.upsize, e', l')) : ∃ text, report.text = .ok text := by
  obtain ⟨upsize, ids, e₁, l₁, heq, hup, _, hids, _, hbytes⟩ := upsize_filed config hk hs hl
  cases h.symm.trans heq
  have htile : ∀ row ∈ report.upsize.buffers, row.tilesAdded ≤ row.bytesAdded := by
    intro row hrow
    obtain ⟨b, _, hb, _, _, hrowbytes⟩ := hup.describes row hrow
    obtain ⟨d, hd, hid⟩ := (hids row.id).1 (hup.ids ▸ List.mem_map_of_mem hrow)
    rw [← hid, hk.get? hd] at hb
    cases hb
    rw [hrowbytes]
    exact Nat.le_mul_of_pos_right _ (Buffer.check_eq_ok_iff.1 (hs b hd)).2.1
  have htiles : total (report.upsize.buffers.map (·.tilesAdded)) ≤
      total (report.upsize.buffers.map (·.bytesAdded)) := total_map_le_total_map htile
  exact PassReport.exists_text (by omega) (by omega)

end Epoch

end TorusRouting
