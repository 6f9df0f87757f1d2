import TorusRouting.Proofs.Relay.Grouping
import TorusRouting.Proofs.Relay.History

/-!
# When greedy growth stops

A round visits every candidate. If it moves nobody, each candidate is exhausted or waits for a size
above the cap, so the cap can rise as long as somebody waits. Growth therefore stops only when all
candidates are exhausted or at their largest size, whatever the resource model answers.
-/

namespace TorusRouting.Relay

variable {σ : Type} [ResourceModel σ]

namespace Candidate

/-- A round under the cap passes the candidate over. -/
def Idle (cap : Nat) (c : Candidate) : Prop :=
  c.exhausted = true ∨ ∀ next, c.nextSize? = some next → cap < next

/-- No round asks for the candidate any more. -/
def Done (c : Candidate) : Prop := c.exhausted = true ∨ c.nextSize? = none

/-- The next size is one of the sizes above the allocation. -/
theorem nextSize?_eq_some {c : Candidate} {next : Nat} (h : c.nextSize? = some next) :
    next ∈ c.sizes ∧ c.allocated < next :=
  ⟨List.mem_of_find?_eq_some h, by simpa using List.find?_some h⟩

end Candidate

namespace Growth

variable {g : Growth σ} {cap i : Nat}

/-- A visit passes the candidate over, or settles an attempt to move it to its next size. -/
theorem visit_cases (cap : Nat) (g : Growth σ) (i : Nat) :
    visit cap g i = g ∧ (∀ c, g.cands[i]? = some c → c.Idle cap) ∨
      ∃ c, g.cands[i]? = some c ∧ c.exhausted = false ∧
        (c.nextSize? = none ∧ visit cap g i = g.settle i c (none, g.model) ∨
          ∃ next, c.nextSize? = some next ∧ next ≤ cap ∧
            visit cap g i = g.settle i c (c.tryGrow next g.model)) := by
  rw [visit]
  cases hc : g.cands[i]? with
  | none => exact Or.inl ⟨rfl, fun _ h => by cases h⟩
  | some c =>
    dsimp only
    split
    · rename_i hexhausted
      refine Or.inl ⟨rfl, fun d hd => ?_⟩
      cases hd
      exact Or.inl hexhausted
    · rename_i hactive
      have hactive := Bool.eq_false_iff.2 hactive
      cases hnext : c.nextSize? with
      | none => exact Or.inr ⟨c, rfl, hactive, Or.inl ⟨hnext, rfl⟩⟩
      | some next =>
        dsimp only
        split
        · rename_i hle
          exact Or.inr ⟨c, rfl, hactive, Or.inr ⟨next, hnext, hle, rfl⟩⟩
        · rename_i hlt
          refine Or.inl ⟨rfl, fun d hd => Or.inr fun n hn => ?_⟩
          cases hd
          cases hnext.symm.trans hn
          exact Nat.lt_of_not_le hlt

omit [ResourceModel σ] in
/-- Settling an attempt touches no other candidate. -/
theorem getElem?_settle_of_ne {j : Nat} (hij : i ≠ j) (c : Candidate) (r : Option GrowthStep × σ) :
    (g.settle i c r).cands[j]? = g.cands[j]? := List.getElem?_set_ne hij

omit [ResourceModel σ] in
private theorem getElem?_settle_self {c : Candidate} (hc : g.cands[i]? = some c)
    (r : Option GrowthStep × σ) : (g.settle i c r).cands[i]? = some (c.after r.1) :=
  List.getElem?_set_self (List.getElem?_eq_some_iff.1 hc).1

omit [ResourceModel σ] in
/-- A move leaves fewer sizes above the allocations. -/
theorem pending_settle_lt {c : Candidate} (hc : g.cands[i]? = some c) {s : GrowthStep}
    (hs : s.after ∈ c.sizes) (hlt : c.allocated < s.after) {r : Option GrowthStep × σ}
    (hr : r.1 = some s) : (g.settle i c r).pending < g.pending := by
  have htotal := total_map_set (·.pending) (b := c.after r.1) hc
  have hmove := Candidate.pending_after_lt hs hlt
  rw [← hr] at hmove
  simp only [pending, settle]
  omega

private theorem visit_of_ne {j : Nat} (hij : i ≠ j) : (visit cap g i).cands[j]? = g.cands[j]? := by
  obtain ⟨heq, _⟩ | ⟨c, _, _, ⟨_, heq⟩ | ⟨_, _, _, heq⟩⟩ := visit_cases cap g i <;> rw [heq]
  · exact getElem?_settle_of_ne hij ..
  · exact getElem?_settle_of_ne hij ..

/-- After a visit that moves nobody, the candidate is passed over. -/
theorem visit_idle (h : (visit cap g i).pending = g.pending) {c : Candidate}
    (hc : (visit cap g i).cands[i]? = some c) : c.Idle cap := by
  obtain ⟨heq, hidle⟩ | ⟨d, hd, _, ⟨_, heq⟩ | ⟨next, hnext, _, heq⟩⟩ := visit_cases cap g i
  · exact hidle c (heq ▸ hc)
  · rw [heq, getElem?_settle_self hd] at hc
    cases hc
    exact Or.inl rfl
  · rw [heq, getElem?_settle_self hd] at hc
    cases hstep : (d.tryGrow next g.model).1 with
    | none =>
      rw [hstep] at hc
      cases hc
      exact Or.inl rfl
    | some s =>
      obtain ⟨hafter, hlt⟩ := Candidate.tryGrow_eq_some (Prod.ext hstep rfl)
      have hsize : s.after ∈ d.sizes := hafter ▸ (Candidate.nextSize?_eq_some hnext).1
      have hmoved := pending_settle_lt hd hsize hlt hstep
      rw [← heq, h] at hmoved
      exact absurd hmoved (Nat.lt_irrefl _)

private theorem pending_visits_le (cap : Nat) (l : List Nat) (g : Growth σ) :
    (l.foldl (visit cap) g).pending ≤ g.pending := by
  induction l generalizing g with
  | nil => exact Nat.le_refl _
  | cons i l ih => exact Nat.le_trans (ih _) (pending_visit_le cap g i)

/-- After visits that move nobody, the visited candidates are passed over. -/
theorem visits_idle {l : List Nat} (h : (l.foldl (visit cap) g).pending = g.pending) {i : Nat}
    (hi : i ∈ l) {c : Candidate} (hc : (l.foldl (visit cap) g).cands[i]? = some c) :
    c.Idle cap := by
  induction l using List.reverseRecOn with
  | nil => cases hi
  | append_singleton l j ih =>
    rw [List.foldl_append, List.foldl_cons, List.foldl_nil] at h hc
    have hlast := pending_visit_le cap (l.foldl (visit cap) g) j
    have hfirst := pending_visits_le cap l g
    by_cases hij : j = i
    · subst hij
      exact visit_idle (by omega) hc
    · rw [visit_of_ne hij] at hc
      refine ih (by omega) ?_ hc
      simpa [Ne.symm hij] using hi

private theorem mem_order {cands : List Candidate} {i : Nat} (hi : i < cands.length) :
    i ∈ order cands := by
  have hperm := (stableSort_perm (fun a b => a.1.allocated < b.1.allocated) cands.zipIdx).map (·.2)
  rw [order, hperm.mem_iff]
  exact List.mem_map.2 ⟨(cands[i], i), List.mk_mem_zipIdx_iff_getElem?.2 (by simp [hi]), rfl⟩

/-- After a round that moves nobody, all candidates are passed over. -/
theorem round_idle (h : (round cap g).pending = g.pending) :
    ∀ c ∈ (round cap g).cands, c.Idle cap := by
  intro c hc
  obtain ⟨i, hi⟩ := List.mem_iff_getElem?.1 hc
  have hlength := (round_history cap g).growsTo.length_eq
  have hlt := (List.getElem?_eq_some_iff.1 hi).1
  exact visits_idle h (mem_order (hlength ▸ hlt)) hi

omit [ResourceModel σ] in
/-- The cap cannot rise when nobody waits for a size. -/
theorem nextCap?_eq_none {cands : List Candidate} (h : nextCap? cands = none) :
    ∀ c ∈ cands, c.Done := by
  intro c hc
  rw [nextCap?, List.min?_eq_none_iff, List.filterMap_eq_nil_iff] at h
  cases hexhausted : c.exhausted with
  | true => exact Or.inl hexhausted
  | false => exact Or.inr (h c (List.mem_filter.2 ⟨hc, by rw [hexhausted]; rfl⟩))

omit [ResourceModel σ] in
/-- The next cap is a size that a candidate waits for, and nobody waits for a smaller one. -/
theorem nextCap?_eq_some {cands : List Candidate} {next : Nat} (h : nextCap? cands = some next) :
    (∃ c ∈ cands, c.exhausted = false ∧ c.nextSize? = some next) ∧
      ∀ c ∈ cands, c.exhausted = false → ∀ n, c.nextSize? = some n → next ≤ n := by
  obtain ⟨hmem, hleast⟩ := List.min?_eq_some_iff.1 h
  constructor
  · obtain ⟨c, hc, hnext⟩ := List.mem_filterMap.1 hmem
    obtain ⟨hc, hactive⟩ := List.mem_filter.1 hc
    exact ⟨c, hc, by simpa using hactive, hnext⟩
  · intro c hc hactive n hn
    exact hleast n (List.mem_filterMap.2 ⟨c, List.mem_filter.2 ⟨hc, by rw [hactive]; rfl⟩, hn⟩)

omit [ResourceModel σ] in
/-- Idle candidates wait for sizes above the cap only. -/
theorem lt_nextCap? {cands : List Candidate} {next : Nat} (hidle : ∀ c ∈ cands, c.Idle cap)
    (h : nextCap? cands = some next) : cap < next := by
  obtain ⟨⟨c, hc, hactive, hnext⟩, _⟩ := nextCap?_eq_some h
  rcases hidle c hc with hexhausted | habove
  · exact absurd (hactive.symm.trans hexhausted) Bool.false_ne_true
  · exact habove next hnext

/-- What every visit keeps, and every rise of the cap over idle candidates, greedy growth keeps. It
stops when no round asks for any candidate. -/
theorem greedy_invariant {P : Nat → Growth σ → Prop}
    (hvisit : ∀ cap g i, P cap g → P cap (visit cap g i))
    (hraise : ∀ cap next g, P cap g → (∀ c ∈ g.cands, c.Idle cap) →
      nextCap? g.cands = some next → P next g)
    (cap : Nat) {g : Growth σ} (h : P cap g) :
    (∃ cap', P cap' (greedy cap g)) ∧ ∀ c ∈ (greedy cap g).cands, c.Done := by
  have hround (cap : Nat) (g : Growth σ) (h : P cap g) : P cap (round cap g) := by
    rw [round]
    generalize order g.cands = l
    induction l generalizing g with
    | nil => exact h
    | cons i l ih => exact ih _ (hvisit cap g i h)
  have hidle (cap : Nat) (g : Growth σ) (hlt : ¬ (round cap g).pending < g.pending) :
      ∀ c ∈ (round cap g).cands, c.Idle cap :=
    round_idle (Nat.le_antisymm (pending_round_le cap g) (Nat.le_of_not_lt hlt))
  induction cap, g using greedy.induct with
  | case1 cap g hlt ih =>
    rw [greedy_eq, if_pos hlt]
    exact ih (hround cap g h)
  | case2 cap g hlt hn =>
    rw [greedy_eq, if_neg hlt, hn]
    exact ⟨⟨cap, hround cap g h⟩, nextCap?_eq_none hn⟩
  | case3 cap g next hcap hlt hn ih =>
    rw [greedy_eq, if_neg hlt, hn]
    simp only [if_pos hcap]
    exact ih (hraise cap next _ (hround cap g h) (hidle cap g hlt) hn)
  | case4 cap g next hcap hlt hn => exact absurd (lt_nextCap? (hidle cap g hlt) hn) hcap

end Growth

end TorusRouting.Relay
