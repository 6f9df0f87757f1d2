import TorusRouting.Proofs.Relay.Rounds
import TorusRouting.Proofs.Relay.View

/-!
# How long growth goes on

A loop is given by one turn of it, which either goes on from a new state or stops with a result.
Both loops of growth end after a bounded number of turns, whatever the resource model answers: each
turn moves a candidate, exhausts one or raises the cap to a valid size. Every accepted move uses up
a valid size above the first allocations. Greedy growth stops only when nobody waits for a larger
size.
-/

namespace TorusRouting

/-- The loop with the given turn, started from `s`, ends in its `k`-th turn with result `r`. -/
inductive Loop {α β : Type} (turn : α → α ⊕ β) : Nat → α → β → Prop
  | last {s : α} {r : β} (h : turn s = .inr r) : Loop turn 1 s r
  | next {k : Nat} {s t : α} {r : β} (h : turn s = .inl t) (hl : Loop turn k t r) :
      Loop turn (k + 1) s r

/-- A loop that makes a measure smaller with every turn ends, with the value of any function that
the turns keep. -/
theorem Loop.exists_of_measure {α β : Type} {turn : α → α ⊕ β} (size : α → Nat) {f : α → β}
    (hlast : ∀ s r, turn s = .inr r → f s = r)
    (hnext : ∀ s t, turn s = .inl t → size t < size s ∧ f s = f t) (s : α) :
    ∃ k ≤ size s + 1, Loop turn k s (f s) := by
  induction hn : size s using Nat.strong_induction_on generalizing s with
  | h n ih =>
    subst hn
    cases hs : turn s with
    | inr r => exact ⟨1, by omega, .last (hlast s r hs ▸ hs)⟩
    | inl t =>
      obtain ⟨hlt, heq⟩ := hnext s t hs
      obtain ⟨k, hk, hl⟩ := ih (size t) hlt t rfl
      exact ⟨k + 1, by omega, .next hs (heq ▸ hl)⟩

namespace Relay.Growth

variable {σ : Type} [ResourceModel σ] {g g' : Growth σ} {cap next : Nat}

/-! ## Accepted moves -/

/-- Every accepted move on the way from `g` to `g'` uses up a valid size above the allocations. -/
structure Spends (g g' : Growth σ) : Prop where
  logged : g.log.length ≤ g'.log.length
  spent : g'.log.length + g'.pending ≤ g.log.length + g.pending
  /-- Without a move no size is used up. -/
  unmoved : g'.log.length = g.log.length → g'.pending = g.pending

/-- A history only spends. -/
theorem History.spends (h : History g g') : g.Spends g' := by
  apply h.invariant (P := g.Spends) ⟨Nat.le_refl _, Nat.le_refl _, fun _ => rfl⟩
  intro g' i c r ih hc hr
  have hlogged := ih.logged
  have hspent := ih.spent
  cases hs : r.1 with
  | none =>
    have hlog : (g'.settle i c r).log = g'.log := by simp [settle, hs]
    have hpending : (g'.settle i c r).pending = g'.pending := by
      have htotal := total_map_set (·.pending) (b := c.after r.1) hc
      have hsame : (c.after r.1).pending = c.pending := by
        rw [hs]
        rfl
      simp only [pending, settle]
      omega
    rw [← hlog, ← hpending] at hspent
    rw [← hlog] at hlogged
    exact ⟨hlogged, hspent, by rw [hlog, hpending]; exact ih.unmoved⟩
  | some s =>
    obtain ⟨_, hsize, hlt⟩ := hr.step_eq hs
    have hmoved := pending_settle_lt hc hsize hlt hs
    have hlog : (g'.settle i c r).log.length = g'.log.length + 1 := by simp [settle, hs]
    exact ⟨by omega, by omega, by omega⟩

/-- A round moves somebody exactly if it leaves fewer sizes above the allocations. -/
theorem round_moves_iff : g.log.length < (round cap g).log.length ↔
    (round cap g).pending < g.pending := by
  obtain ⟨hlogged, hspent, hunmoved⟩ := (round_history cap g).spends
  constructor
  · intro hlt
    omega
  · intro hlt
    by_contra hle
    have hsame := hunmoved (by omega)
    omega

/-- After a round that moves nobody, the next cap is above the cap. -/
theorem cap_lt_of_unmoved (h : ¬ g.log.length < (round cap g).log.length)
    (hn : nextCap? (round cap g).cands = some next) : cap < next := by
  rw [round_moves_iff] at h
  exact lt_nextCap? (round_idle (by have := pending_round_le cap g; omega)) hn

/-! ## One turn of each loop -/

/-- A turn of greedy growth: one round, and the cap of the next turn if there is one. -/
def greedyTurn (s : Nat × Growth σ) : (Nat × Growth σ) ⊕ Growth σ :=
  let g := round s.1 s.2
  if s.2.log.length < g.log.length then .inl (s.1, g)
  else match nextCap? g.cands with
    | some next => if s.1 < next then .inl (next, g) else .inr g
    | none => .inr g

/-- A turn of growth towards targets: one attempt on the candidate furthest below its target. -/
def targetsTurn (g : Growth σ) : Growth σ ⊕ (Outcome Unit × Growth σ) :=
  match furthest 0 g.cands with
  | none => .inr (.ok (), g)
  | some (i, c) =>
    if tilesFor c < UInt64.size then
      .inl (g.settle i c (c.growToFirst (c.sizesUpTo (tilesFor c)) g.model))
    else .inr (fault .overflow, g)

/-- A turn after which greedy growth goes on used up a valid size, or raised the cap to one. -/
theorem greedyTurn_next {cap' : Nat} (h : greedyTurn (cap, g) = .inl (cap', g')) :
    g'.pending + g'.sizesAbove cap' < g.pending + g.sizesAbove cap ∧
      greedy cap g = greedy cap' g' := by
  have hpending := pending_round_le cap g
  have habove := sizesAbove_round cap g cap
  simp only [greedyTurn, round_moves_iff] at h
  rw [greedy_eq]
  split at h
  · rename_i hlt
    cases h
    rw [if_pos hlt]
    exact ⟨by omega, rfl⟩
  · rename_i hlt
    rw [if_neg hlt]
    split at h
    · rename_i next hn
      split at h
      · rename_i hcap
        cases h
        have hrise : (round cap g).sizesAbove cap' < (round cap g).sizesAbove cap :=
          countP_lt_of_mem (nextCap?_mem hn) hcap
        simp only [hn, if_pos hcap, and_true]
        omega
      · cases h
    · cases h

private theorem greedyTurn_last (h : greedyTurn (cap, g) = .inr g') : greedy cap g = g' := by
  simp only [greedyTurn, round_moves_iff] at h
  rw [greedy_eq]
  split at h
  · cases h
  · rename_i hlt
    rw [if_neg hlt]
    split at h
    · rename_i next hn
      split at h
      · cases h
      · rename_i hcap
        cases h
        simp only [hn, if_neg hcap]
    · rename_i hn
      cases h
      simp only [hn]

/-- A turn after which growth towards targets goes on moved a candidate or exhausted it. -/
theorem targetsTurn_next (h : targetsTurn g = .inl g') :
    total (g'.cands.map slack) < total (g.cands.map slack) ∧
      towardsTargets g = towardsTargets g' := by
  rw [towardsTargets_eq]
  unfold targetsTurn at h
  cases hf : furthest 0 g.cands with
  | none =>
    rw [hf] at h
    cases h
  | some p =>
    obtain ⟨i, c⟩ := p
    simp only [hf] at h
    split at h
    · rename_i htiles
      cases h
      simp only [if_pos htiles, and_true]
      exact slack_settle_lt hf
    · cases h

private theorem targetsTurn_last {r : Outcome Unit × Growth σ} (h : targetsTurn g = .inr r) :
    towardsTargets g = r := by
  rw [towardsTargets_eq]
  unfold targetsTurn at h
  cases hf : furthest 0 g.cands with
  | none =>
    rw [hf] at h
    exact Sum.inr.inj h
  | some p =>
    obtain ⟨i, c⟩ := p
    simp only [hf] at h
    split at h
    · cases h
    · rename_i htiles
      simp only [if_neg htiles]
      exact Sum.inr.inj h

/-! ## Whole runs -/

private theorem exists_greedy_loop (cap : Nat) (g : Growth σ) :
    ∃ k ≤ g.pending + g.sizesAbove cap + 1, Loop greedyTurn k (cap, g) (greedy cap g) := by
  refine Loop.exists_of_measure (fun s => s.2.pending + s.2.sizesAbove s.1)
    (f := fun s => greedy s.1 s.2) ?_ ?_ (cap, g)
  · rintro ⟨cap, g⟩ r h
    exact greedyTurn_last h
  · rintro ⟨cap, g⟩ ⟨cap', g'⟩ h
    exact greedyTurn_next h

omit [ResourceModel σ] in
/-- A candidate can take part in one step for each valid size, and in one more. -/
theorem total_slack_le (cands : List Candidate) :
    total (cands.map slack) ≤ total (cands.map (·.pending)) + cands.length := by
  induction cands with
  | nil => exact Nat.le_refl _
  | cons c cands ih =>
    have hc : slack c ≤ c.pending + 1 := by
      unfold slack
      split <;> omega
    simp only [List.map_cons, total_cons, List.length_cons]
    omega

private theorem exists_targets_loop (g : Growth σ) :
    ∃ k ≤ g.pending + g.cands.length + 1, Loop targetsTurn k g (towardsTargets g) := by
  have hloop : ∃ k ≤ total (g.cands.map slack) + 1, Loop targetsTurn k g (towardsTargets g) :=
    Loop.exists_of_measure (fun g => total (g.cands.map slack)) (fun _ _ => targetsTurn_last)
      (fun _ _ => targetsTurn_next) g
  obtain ⟨k, hk, hl⟩ := hloop
  have hslack := total_slack_le g.cands
  refine ⟨k, ?_, hl⟩
  unfold pending
  omega

/-- Growth of any candidates ends, whatever the resource model answers from call to call. Neither
greedy growth nor growth towards targets, which also stops at an overflow, accepts more moves than
there are valid sizes above the first allocations. Greedy growth ends with all candidates exhausted
or out of larger sizes: after a round that moves nobody, the smallest size still waited for is above
the cap. -/
theorem growth_ends (cands : List Candidate) (m : σ) (cap : Nat) :
    (∃ k ≤ total (cands.map (·.pending)) + (cands.flatMap (·.sizes)).countP (cap < ·) + 1,
        Loop greedyTurn k (cap, ⟨cands, m, []⟩) (greedy cap ⟨cands, m, []⟩)) ∧
      (greedy cap ⟨cands, m, []⟩).log.length ≤ total (cands.map (·.pending)) ∧
      (∀ c ∈ (greedy cap ⟨cands, m, []⟩).cands,
        c.exhausted = true ∨ ∀ s ∈ c.sizes, s ≤ c.allocated) ∧
      (∀ (cap next : Nat) (g : Growth σ), (round cap g).log.length = g.log.length →
        nextCap? (round cap g).cands = some next → cap < next) ∧
      (∃ k ≤ total (cands.map (·.pending)) + cands.length + 1,
        Loop targetsTurn k ⟨cands, m, []⟩ (towardsTargets ⟨cands, m, []⟩)) ∧
      (towardsTargets ⟨cands, m, []⟩).2.log.length ≤ total (cands.map (·.pending)) := by
  have moves {g : Growth σ} (h : History ⟨cands, m, []⟩ g) :
      g.log.length ≤ total (cands.map (·.pending)) := by
    have hspent := h.spends.spent
    simp only [List.length_nil, pending] at hspent
    omega
  obtain ⟨_, hdone⟩ := greedy_invariant (P := fun _ _ => True) (by simp) (by simp) cap
    (g := ⟨cands, m, []⟩) trivial
  refine ⟨exists_greedy_loop cap ⟨cands, m, []⟩, moves (greedy_history cap _), fun c hc => ?_, ?_,
    exists_targets_loop ⟨cands, m, []⟩, moves (towardsTargets_history _)⟩
  · refine (hdone c hc).imp_right fun hnone s hs => ?_
    simpa [Candidate.nextSize?] using List.find?_eq_none.1 hnone s hs
  · intro cap next g hlog hn
    exact cap_lt_of_unmoved (Nat.not_lt.2 hlog.le) hn

end Relay.Growth

end TorusRouting
