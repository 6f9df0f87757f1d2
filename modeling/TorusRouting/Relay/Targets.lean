import TorusRouting.Relay.Growth

/-!
# Growing towards targets

The spare bytes of a core are shared out in proportion to the granules. The candidate furthest below
its target grows to the largest size in reach, until nobody is below its target or can move. Every
attempt moves the candidate or exhausts it, so this ends whatever the resource model answers.
-/

namespace TorusRouting.Relay.Growth

variable {σ : Type} [ResourceModel σ]

/-- Bytes a candidate is below its target. -/
def deficit (c : Candidate) : Nat := c.target - c.bytes

/-- The candidate furthest below its target, with its position counted from `i`; the first such
on a tie. -/
def furthest (i : Nat) : List Candidate → Option (Nat × Candidate)
  | [] => none
  | c :: cands =>
    let rest := furthest (i + 1) cands
    if c.exhausted || deficit c == 0 then rest
    else match rest with
      | none => some (i, c)
      | some (j, d) => if deficit c < deficit d then some (j, d) else some (i, c)

/-- The candidate furthest from its target is one that is not exhausted. -/
theorem furthest_eq_some {i j : Nat} {cands : List Candidate} {c : Candidate}
    (h : furthest i cands = some (j, c)) :
    ∃ k, j = i + k ∧ cands[k]? = some c ∧ c.exhausted = false := by
  induction cands generalizing i with
  | nil => simp [furthest] at h
  | cons d cands ih =>
    have shift (hr : furthest (i + 1) cands = some (j, c)) :
        ∃ k, j = i + k ∧ (d :: cands)[k]? = some c ∧ c.exhausted = false := by
      obtain ⟨k, hk, hc⟩ := ih hr
      exact ⟨k + 1, by omega, by simpa using hc⟩
    simp only [furthest] at h
    split at h
    · exact shift h
    · rename_i hd
      have hd : d.exhausted = false := by
        cases he : d.exhausted <;> simp_all
      have here (hr : (i, d) = (j, c)) :
          ∃ k, j = i + k ∧ (d :: cands)[k]? = some c ∧ c.exhausted = false := by
        obtain ⟨rfl, rfl⟩ := Prod.mk.inj hr
        exact ⟨0, rfl, rfl, hd⟩
      split at h
      · exact here (Option.some.inj h)
      · rename_i hr
        split at h
        · exact shift (hr.trans h)
        · exact here (Option.some.inj h)

/-- Number of steps a candidate can still take part in. -/
def slack (c : Candidate) : Nat := c.pending + if c.exhausted then 0 else 1

/-- The largest number of tiles that exceeds a byte target by at most one tile. -/
def tilesFor (c : Candidate) : Nat := c.target / c.tileBytes + 1

private theorem slack_after_lt {c : Candidate} (hc : c.exhausted = false) (limit : Nat) (m : σ) :
    slack (c.after (c.growToFirst (c.sizesUpTo limit) m).1) < slack c := by
  cases h : c.growToFirst (c.sizesUpTo limit) m with
  | mk step m' =>
    cases step with
    | none =>
      have hp : (c.after none).pending = c.pending := rfl
      have he : (c.after none).exhausted = true := rfl
      simp only [slack, hp, he, hc, Bool.false_eq_true, ite_true, ite_false]
      omega
    | some s =>
      obtain ⟨hm, ha⟩ := Candidate.growToFirst_eq_some h
      have := Candidate.pending_after_lt (Candidate.mem_sizesUpTo.1 hm).1 ha
      simp only [slack, Candidate.after, hc] at this ⊢
      omega

/-- An attempt on the furthest candidate leaves fewer steps to take part in. -/
theorem slack_settle_lt {g : Growth σ} {i : Nat} {c : Candidate}
    (h : furthest 0 g.cands = some (i, c)) :
    total ((g.settle i c (c.growToFirst (c.sizesUpTo (tilesFor c)) g.model)).cands.map slack) <
      total (g.cands.map slack) := by
  obtain ⟨k, hk, hc, he⟩ := furthest_eq_some h
  have hi : g.cands[i]? = some c := by
    rw [hk, Nat.zero_add]
    exact hc
  have hs := total_map_set slack
    (b := c.after (c.growToFirst (c.sizesUpTo (tilesFor c)) g.model).1) hi
  have := slack_after_lt he (tilesFor c) g.model
  simp only [settle]
  omega

/-- Repeatedly grow the candidate furthest below its target to the largest size in reach. A fault
leaves the growth made before it. -/
def towardsTargets (g : Growth σ) : Outcome Unit × Growth σ :=
  match _h : furthest 0 g.cands with
  | none => (.ok (), g)
  | some (i, c) =>
    if tilesFor c < UInt64.size then
      towardsTargets (g.settle i c (c.growToFirst (c.sizesUpTo (tilesFor c)) g.model))
    else (fault .overflow, g)
termination_by total (g.cands.map slack)
decreasing_by exact slack_settle_lt _h

/-- Give every candidate a share of the spare bytes in proportion to its granule, but at least
to `4`, on top of what it has. -/
def withTargets (spare : UInt64) (cands : List Candidate) : List Candidate :=
  let weight (c : Candidate) : Nat := max c.granule 4
  let weights := total (cands.map weight)
  cands.map fun c =>
    { c with target := min (c.bytes + spare.toNat * weight c / weights) maxWord64 }

end TorusRouting.Relay.Growth
