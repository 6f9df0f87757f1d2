import TorusRouting.Relay.Grouping
import TorusRouting.Relay.Growth

/-!
# Growing evenly

The smallest candidates grow first, one valid size at a time and never past a cap. Whatever the
resource model answers, this ends: a round that moves somebody leaves fewer sizes above the
allocations, and after any other round the cap rises to a valid size or growth stops.
-/

namespace TorusRouting.Relay.Growth

variable {σ : Type} [ResourceModel σ]

/-- Move candidate `i` to its next size if that is not above the cap. -/
def visit (cap : Nat) (g : Growth σ) (i : Nat) : Growth σ :=
  match g.cands[i]? with
  | none => g
  | some c =>
    if c.exhausted then g
    else match c.nextSize? with
      | none => g.settle i c (none, g.model)
      | some next => if next ≤ cap then g.settle i c (c.tryGrow next g.model) else g

/-- Positions of the candidates, smallest allocation first. -/
def order (cands : List Candidate) : List Nat :=
  (stableSort (fun a b => a.1.allocated < b.1.allocated) cands.zipIdx).map (·.2)

/-- Visit every candidate once. -/
def round (cap : Nat) (g : Growth σ) : Growth σ := (order g.cands).foldl (visit cap) g

/-- The smallest size that a candidate still waits for. -/
def nextCap? (cands : List Candidate) : Option Nat :=
  ((cands.filter (!·.exhausted)).filterMap (·.nextSize?)).min?

omit [ResourceModel σ] in
/-- Candidates keep their valid sizes. -/
theorem sizes_settle {g : Growth σ} {i : Nat} {c : Candidate} (h : g.cands[i]? = some c)
    (r : Option GrowthStep × σ) :
    (g.settle i c r).cands.map (·.sizes) = g.cands.map (·.sizes) := by
  refine List.ext_getElem? fun j => ?_
  simp only [settle, List.getElem?_map, List.getElem?_set]
  by_cases hij : i = j
  · subst hij
    obtain ⟨hi, rfl⟩ := List.getElem?_eq_some_iff.1 h
    simp [hi]
  · simp [hij]

omit [ResourceModel σ] in
private theorem pending_settle_le {g : Growth σ} {i : Nat} {c : Candidate}
    (h : g.cands[i]? = some c)
    {r : Option GrowthStep × σ} (hr : ∀ t, r.1 = some t → c.allocated < t.after) :
    (g.settle i c r).pending ≤ g.pending := by
  have hs := total_map_set (·.pending) (b := c.after r.1) h
  have hp := Candidate.pending_after_le hr
  simp only [pending, settle]
  omega

/-- A visit adds no size above the allocations. -/
theorem pending_visit_le (cap : Nat) (g : Growth σ) (i : Nat) :
    (visit cap g i).pending ≤ g.pending := by
  unfold visit
  split
  · exact Nat.le_refl _
  · rename_i c hc
    split
    · exact Nat.le_refl _
    · split
      · exact pending_settle_le hc (by simp)
      · split
        · exact pending_settle_le hc fun t ht =>
            (Candidate.tryGrow_eq_some (Prod.ext ht rfl)).2
        · exact Nat.le_refl _

private theorem sizes_visit (cap : Nat) (g : Growth σ) (i : Nat) :
    (visit cap g i).cands.map (·.sizes) = g.cands.map (·.sizes) := by
  unfold visit
  split
  · rfl
  · rename_i c hc
    split
    · rfl
    · split
      · exact sizes_settle hc _
      · split
        · exact sizes_settle hc _
        · rfl

/-- A round leaves no more sizes to be reached than before. -/
theorem pending_round_le (cap : Nat) (g : Growth σ) : (round cap g).pending ≤ g.pending := by
  unfold round
  generalize order g.cands = l
  induction l generalizing g with
  | nil => exact Nat.le_refl _
  | cons i l ih => exact Nat.le_trans (ih _) (pending_visit_le cap g i)

private theorem sizes_round (cap : Nat) (g : Growth σ) :
    (round cap g).cands.map (·.sizes) = g.cands.map (·.sizes) := by
  unfold round
  generalize order g.cands = l
  induction l generalizing g with
  | nil => rfl
  | cons i l ih => exact (ih _).trans (sizes_visit cap g i)

/-- A round leaves the sizes above a cap as they are. -/
theorem sizesAbove_round (cap : Nat) (g : Growth σ) (n : Nat) :
    (round cap g).sizesAbove n = g.sizesAbove n := by
  simp only [sizesAbove, List.flatMap_def, sizes_round]

/-- The next cap is a valid size of some candidate. -/
theorem nextCap?_mem {cands : List Candidate} {n : Nat} (h : nextCap? cands = some n) :
    n ∈ cands.flatMap (·.sizes) := by
  have hn := List.min?_mem h
  obtain ⟨c, hc, hs⟩ := List.mem_filterMap.1 hn
  exact List.mem_flatMap.2 ⟨c, (List.mem_filter.1 hc).1, List.mem_of_find?_eq_some hs⟩

/-- Grow the smallest candidates one valid size at a time, never past the cap. When a round
moves nobody, the cap rises to the smallest size still waited for. -/
def greedy (cap : Nat) (g : Growth σ) : Growth σ :=
  match _hr : round cap g with
  | g' =>
    if g'.pending < g.pending then greedy cap g'
    else match _h : nextCap? g'.cands with
      | none => g'
      | some next => if cap < next then greedy next g' else g'
termination_by (g.pending, g.sizesAbove cap)
decreasing_by
  · exact Prod.Lex.left _ _ ‹_›
  · subst _hr
    have hle := pending_round_le cap g
    have he : (round cap g).pending = g.pending := by omega
    rw [he]
    refine Prod.Lex.right _ ?_
    rw [← sizesAbove_round cap g cap]
    exact countP_lt_of_mem (nextCap?_mem _h) ‹_›

end TorusRouting.Relay.Growth
