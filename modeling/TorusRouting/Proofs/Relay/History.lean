import Mathlib.Data.List.Forall2
import TorusRouting.Relay.Upsizing

/-!
# Histories of growth

An attempt on a candidate asks for valid sizes above its allocation, one after the other, until
one is granted or it stops. All ways to grow the candidates of a core are histories of such
attempts. So whatever an attempt keeps, growth keeps, for every resource model.
-/

namespace TorusRouting.Relay

variable {σ : Type} [ResourceModel σ]

namespace Candidate

/-- Bytes asked for to move a candidate to `target` tiles. -/
def cost (c : Candidate) (target : Nat) : UInt64 := clamp64 ((target - c.allocated) * c.tileBytes)

/-- What an attempt to grow a candidate can do to a resource model, and with which result. -/
inductive Attempt (c : Candidate) : σ → Option GrowthStep × σ → Prop
  | stop (m : σ) : Attempt c m (none, m)
  | refused {m m' : σ} {t : Nat} {x : CapacityError} {r : Option GrowthStep × σ}
      (ht : t ∈ c.sizes) (ha : c.allocated < t)
      (hr : ResourceModel.reserve m c.core (c.cost t) = (.error x, m'))
      (h : Attempt c m' r) : Attempt c m r
  | granted {m m' : σ} {t : Nat} (ht : t ∈ c.sizes) (ha : c.allocated < t)
      (hr : ResourceModel.reserve m c.core (c.cost t) = (.ok (), m')) :
      Attempt c m (some ⟨c.id, c.allocated, t, c.cost t⟩, m')

/-- After a fruitless attempt another one may follow. -/
theorem Attempt.append {c : Candidate} {m m' : σ} {r : Option GrowthStep × σ}
    (h : c.Attempt m (none, m')) (hr : c.Attempt m' r) : c.Attempt m r := by
  generalize hs : ((none, m') : Option GrowthStep × σ) = s at h
  induction h with
  | stop m =>
    cases hs
    exact hr
  | refused ht ha hres _ ih => exact .refused ht ha hres (ih hs)
  | granted => cases hs

/-- An accepted move goes up to a valid size and asks for its exact cost. -/
theorem Attempt.step_eq {c : Candidate} {m : σ} {r : Option GrowthStep × σ} (h : c.Attempt m r)
    {s : GrowthStep} (hs : r.1 = some s) :
    s = ⟨c.id, c.allocated, s.after, c.cost s.after⟩ ∧ s.after ∈ c.sizes ∧
      c.allocated < s.after := by
  induction h with
  | stop => cases hs
  | refused _ _ _ _ ih => exact ih hs
  | granted ht ha =>
    cases hs
    exact ⟨rfl, ht, ha⟩

private theorem tryGrow_attempt {c : Candidate} {t : Nat} (ht : t ∈ c.sizes) (m : σ) :
    c.Attempt m (c.tryGrow t m) := by
  unfold tryGrow
  split
  · exact .stop m
  · rename_i hle
    have ha : c.allocated < t := by omega
    dsimp only
    split
    · rename_i hr
      exact .granted ht ha hr
    · rename_i hr
      exact .refused ht ha hr (.stop _)

/-- Asking for several valid sizes in turn is one attempt. -/
theorem growToFirst_attempt {c : Candidate} {sizes : List Nat} (hs : ∀ t ∈ sizes, t ∈ c.sizes)
    (m : σ) : c.Attempt m (c.growToFirst sizes m) := by
  induction sizes generalizing m with
  | nil => exact .stop m
  | cons t sizes ih =>
    have hg := tryGrow_attempt (hs t (List.mem_cons_self ..)) m
    unfold growToFirst
    split
    · rename_i heq
      rwa [heq] at hg
    · rename_i heq
      rw [heq] at hg
      exact hg.append (ih (fun t ht => hs t (List.mem_cons_of_mem _ ht)) _)

/-- `d` is `c` moved up to one of its valid sizes, or not moved at all. -/
structure GrowsTo (c d : Candidate) : Prop where
  same : d = { c with allocated := d.allocated, exhausted := d.exhausted }
  moved : d.allocated = c.allocated ∨ c.allocated < d.allocated ∧ d.allocated ∈ c.sizes

omit [ResourceModel σ] in
/-- A candidate may stay as it is. -/
theorem GrowsTo.refl (c : Candidate) : c.GrowsTo c := ⟨rfl, Or.inl rfl⟩

omit [ResourceModel σ] in
/-- A candidate never shrinks. -/
theorem GrowsTo.le {c d : Candidate} (h : c.GrowsTo d) : c.allocated ≤ d.allocated := by
  rcases h.moved with he | ⟨hlt, _⟩
  · exact Nat.le_of_eq he.symm
  · exact Nat.le_of_lt hlt

omit [ResourceModel σ] in
/-- A candidate grows in two stretches. -/
theorem GrowsTo.trans {b c d : Candidate} (h : b.GrowsTo c) (h' : c.GrowsTo d) : b.GrowsTo d := by
  have hsizes : c.sizes = b.sizes := by rw [h.same]
  refine ⟨?_, ?_⟩
  · rw [h'.same, h.same]
  · rcases h'.moved with he | ⟨hlt, hm⟩
    · rw [he]
      exact h.moved
    · exact Or.inr ⟨Nat.lt_of_le_of_lt h.le hlt, hsizes ▸ hm⟩

/-- An attempt leaves the candidate, or moves it up to a valid size. -/
theorem Attempt.growsTo {c : Candidate} {m : σ} {r : Option GrowthStep × σ} (h : c.Attempt m r) :
    c.GrowsTo (c.after r.1) := by
  cases hs : r.1 with
  | none => exact ⟨rfl, Or.inl rfl⟩
  | some s =>
    obtain ⟨_, hm, hlt⟩ := h.step_eq hs
    exact ⟨rfl, Or.inr ⟨hlt, hm⟩⟩

end Candidate

namespace Growth

/-- Growth from `g` by attempts on its candidates, in any order. -/
inductive History (g : Growth σ) : Growth σ → Prop
  | refl : History g g
  | snoc {g' : Growth σ} {i : Nat} {c : Candidate} {r : Option GrowthStep × σ} :
      History g g' → g'.cands[i]? = some c → c.Attempt g'.model r → History g (g'.settle i c r)

/-- Histories follow one another. -/
theorem History.trans {f g h : Growth σ} (hg : History f g) (hh : History g h) : History f h := by
  induction hh with
  | refl => exact hg
  | snoc _ hc hr ih => exact ih.snoc hc hr

/-- One attempt is a history. -/
theorem History.single {g : Growth σ} {i : Nat} {c : Candidate} {r : Option GrowthStep × σ}
    (hc : g.cands[i]? = some c) (hr : c.Attempt g.model r) : History g (g.settle i c r) :=
  History.refl.snoc hc hr

/-- What every attempt keeps, a history keeps. -/
theorem History.invariant {P : Growth σ → Prop} {g g' : Growth σ} (h : History g g') (h0 : P g)
    (step : ∀ (g : Growth σ) (i : Nat) (c : Candidate) (r : Option GrowthStep × σ), P g →
      g.cands[i]? = some c → c.Attempt g.model r → P (g.settle i c r)) : P g' := by
  induction h with
  | refl => exact h0
  | snoc _ hc hr ih => exact step _ _ _ _ ih hc hr

/-! ## The three ways to grow -/

private theorem single_history (c : Candidate) (m : σ) : History ⟨[c], m, []⟩ (single c m) := by
  refine History.single rfl (Candidate.growToFirst_attempt (fun t ht => ?_) m)
  simp only [Candidate.largerSizes, List.mem_reverse, List.mem_filter] at ht
  exact ht.1

/-- A visit is a history of attempts. -/
theorem visit_history (cap : Nat) (g : Growth σ) (i : Nat) : History g (visit cap g i) := by
  unfold visit
  split
  · exact .refl
  · rename_i c hc
    split
    · exact .refl
    · split
      · exact .single hc (.stop _)
      · rename_i next hn
        split
        · exact .single hc (Candidate.tryGrow_attempt (List.mem_of_find?_eq_some hn) _)
        · exact .refl

/-- A round is a history of attempts. -/
theorem round_history (cap : Nat) (g : Growth σ) : History g (round cap g) := by
  unfold round
  generalize order g.cands = l
  induction l generalizing g with
  | nil => exact .refl
  | cons i l ih => exact (visit_history cap g i).trans (ih _)

/-- One turn of greedy growth: a round, then another one under the same or a higher cap. -/
theorem greedy_eq (cap : Nat) (g : Growth σ) :
    greedy cap g = if (round cap g).pending < g.pending then greedy cap (round cap g)
      else match nextCap? (round cap g).cands with
        | none => round cap g
        | some next => if cap < next then greedy next (round cap g) else round cap g := by
  rw [greedy]
  change (if _ then _ else _) = _
  by_cases hlt : (round cap g).pending < g.pending
  · rw [if_pos hlt, if_pos hlt]
  · rw [if_neg hlt, if_neg hlt]
    split <;> rename_i hn <;> rw [hn]

/-- The greedy strategy is a history of attempts. -/
theorem greedy_history (cap : Nat) (g : Growth σ) : History g (greedy cap g) := by
  induction cap, g using greedy.induct with
  | case1 cap g hlt ih =>
    rw [greedy_eq, if_pos hlt]
    exact (round_history cap g).trans ih
  | case2 cap g hlt hn =>
    rw [greedy_eq, if_neg hlt, hn]
    exact round_history cap g
  | case3 cap g next hcap hlt hn ih =>
    rw [greedy_eq, if_neg hlt, hn]
    simp only [if_pos hcap]
    exact (round_history cap g).trans ih
  | case4 cap g next hcap hlt hn =>
    rw [greedy_eq, if_neg hlt, hn]
    simp only [if_neg hcap]
    exact round_history cap g

/-- The proportional strategy is a history of attempts, also where it fails. -/
theorem towardsTargets_history (g : Growth σ) : History g (towardsTargets g).2 := by
  fun_induction towardsTargets g with
  | case1 g h => exact .refl
  | case2 g i c h hlt ih =>
    obtain ⟨k, hk, hc, _⟩ := furthest_eq_some h
    rw [Nat.zero_add] at hk
    subst hk
    refine (History.single hc (Candidate.growToFirst_attempt (fun t ht => ?_) g.model)).trans ih
    exact (Candidate.mem_sizesUpTo.1 ht).1
  | case3 g i c h hlt => exact .refl

/-- Growth on a core is a history that starts from its candidates, up to their targets. -/
theorem run_history (strategy : UpsizeStrategy) (core : Core) (cands : List Candidate) (m : σ) :
    ∃ aim : Candidate → Nat, History ⟨cands.map fun c => { c with target := aim c }, m, []⟩
      (run strategy core cands m).2 := by
  have hid : (cands.map fun c => { c with target := c.target }) = cands := List.map_id cands
  unfold run
  split
  · exact ⟨(·.target), hid ▸ single_history _ m⟩
  · exact ⟨(·.target), hid.symm ▸ greedy_history _ _⟩
  · exact ⟨_, towardsTargets_history _⟩

/-! ## What a history keeps -/

/-- Replacing an element keeps two lists related if its partner stays related. -/
theorem forall₂_set {R : Candidate → Candidate → Prop} {l l' : List Candidate}
    (h : List.Forall₂ R l l') {i : Nat} {c d : Candidate} (hc : l'[i]? = some c)
    (hd : ∀ b, R b c → R b d) : List.Forall₂ R l (l'.set i d) := by
  induction h generalizing i with
  | nil => simp at hc
  | cons hr ht ih =>
    cases i with
    | zero =>
      cases hc
      exact .cons (hd _ hr) ht
    | succ i => exact .cons hr (ih (by simpa using hc))

/-- Every candidate stays, or moves up to one of its valid sizes. -/
theorem History.growsTo {g g' : Growth σ} (h : History g g') :
    List.Forall₂ Candidate.GrowsTo g.cands g'.cands := by
  apply h.invariant (P := fun g' => List.Forall₂ Candidate.GrowsTo g.cands g'.cands)
  · exact List.forall₂_same.2 fun c _ => .refl c
  · intro g' i c r ih hc hr
    exact forall₂_set ih hc fun b hb => hb.trans hr.growsTo

end Growth

end TorusRouting.Relay
