import TorusRouting.Proofs.Relay.History

/-!
# Growth asks about its own core only

Growth on a core asks the resource model about that core and about no other. So it cannot tell a
model from a view of it that gives the same answers about the core: it makes the same moves, ends
in the same way, and leaves the view of the model it would have left.
-/

namespace TorusRouting

variable {σ τ : Type} [ResourceModel σ] [ResourceModel τ] {f : σ → τ} {core : Core}

/-- `f` shows a model in a way that keeps all answers about a core. -/
structure ResourceModel.View (f : σ → τ) (core : Core) : Prop where
  available : ∀ m, available (f m) core = available m core
  reserve : ∀ m bytes, reserve (f m) core bytes =
    ((reserve m core bytes).1, f (reserve m core bytes).2)

namespace Relay

open ResourceModel

namespace Candidate

variable {c : Candidate}

private theorem tryGrow_view (h : View f core) (hc : c.core = core) (target : Nat) (m : σ) :
    c.tryGrow target (f m) = ((c.tryGrow target m).1, f (c.tryGrow target m).2) := by
  unfold tryGrow
  split
  · rfl
  · simp only [hc, h.reserve]
    rcases reserve m core _ with ⟨_ | _, m'⟩ <;> rfl

private theorem growToFirst_view (h : View f core) (hc : c.core = core) (sizes : List Nat) (m : σ) :
    c.growToFirst sizes (f m) = ((c.growToFirst sizes m).1, f (c.growToFirst sizes m).2) := by
  induction sizes generalizing m with
  | nil => rfl
  | cons s sizes ih =>
    rw [growToFirst, growToFirst, tryGrow_view h hc]
    rcases c.tryGrow s m with ⟨_ | step, m'⟩
    · exact ih m'
    · rfl

end Candidate

namespace Growth

/-- The same growth, with the model seen through `f`. -/
def view (f : σ → τ) (g : Growth σ) : Growth τ := ⟨g.cands, f g.model, g.log⟩

/-- All candidates are on the core. -/
def OnCore (g : Growth σ) (core : Core) : Prop := ∀ c ∈ g.cands, c.core = core

variable {g g' : Growth σ}

omit [ResourceModel σ] [ResourceModel τ] in
/-- A view shows the same candidates. -/
@[simp] theorem cands_view (f : σ → τ) (g : Growth σ) : (g.view f).cands = g.cands := rfl

omit [ResourceModel σ] in
/-- Settling an attempt keeps the growth on its core. -/
theorem OnCore.settle (hg : g.OnCore core) {c : Candidate} (hc : c.core = core) (i : Nat)
    (r : Option GrowthStep × σ) : (g.settle i c r).OnCore core := by
  intro d hd
  rcases List.mem_or_eq_of_mem_set hd with hd | rfl
  · exact hg d hd
  · cases r.1 <;> exact hc

/-- Candidates stay on their core. -/
theorem History.onCore (h : History g g') (hg : g.OnCore core) : g'.OnCore core := by
  apply h.invariant hg
  intro g i c r ih hc _
  exact ih.settle (ih c (List.mem_of_getElem? hc)) i r

private theorem visit_view (h : View f core) (hg : g.OnCore core) (cap i : Nat) :
    visit cap (g.view f) i = (visit cap g i).view f := by
  unfold visit
  rw [cands_view]
  cases hc : g.cands[i]? with
  | none => rfl
  | some c =>
    have hcore := hg c (List.mem_of_getElem? hc)
    dsimp only
    split
    · rfl
    · split
      · rfl
      · split
        · rename_i next _ _
          change (g.view f).settle i c (c.tryGrow next (f g.model)) = _
          rw [Candidate.tryGrow_view h hcore]
          rfl
        · rfl

private theorem round_view (h : View f core) (hg : g.OnCore core) (cap : Nat) :
    round cap (g.view f) = (round cap g).view f := by
  have hvisits (l : List Nat) (g : Growth σ) (hg : g.OnCore core) :
      l.foldl (visit cap) (g.view f) = (l.foldl (visit cap) g).view f := by
    induction l generalizing g with
    | nil => rfl
    | cons i l ih =>
      rw [List.foldl_cons, List.foldl_cons, visit_view h hg]
      exact ih _ ((visit_history cap g i).onCore hg)
  exact hvisits (order g.cands) g hg

/-- One turn of greedy growth on a view takes the branch that the turn on the model takes. -/
theorem greedy_view_eq (h : View f core) (hg : g.OnCore core) (cap : Nat) :
    greedy cap (g.view f) =
      if (round cap g).pending < g.pending then greedy cap ((round cap g).view f)
      else match nextCap? (round cap g).cands with
        | none => (round cap g).view f
        | some next => if cap < next then greedy next ((round cap g).view f)
          else (round cap g).view f := by
  rw [greedy_eq, round_view h hg]
  rfl

private theorem greedy_view (h : View f core) (hg : g.OnCore core) (cap : Nat) :
    greedy cap (g.view f) = (greedy cap g).view f := by
  induction cap, g using greedy.induct with
  | case1 cap g hlt ih =>
    rw [greedy_view_eq h hg, greedy_eq cap g, if_pos hlt, if_pos hlt]
    exact ih ((round_history cap g).onCore hg)
  | case2 cap g hlt hn => rw [greedy_view_eq h hg, greedy_eq cap g, if_neg hlt, if_neg hlt, hn]
  | case3 cap g next hcap hlt hn ih =>
    rw [greedy_view_eq h hg, greedy_eq cap g, if_neg hlt, if_neg hlt, hn]
    simp only [if_pos hcap]
    exact ih ((round_history cap g).onCore hg)
  | case4 cap g next hcap hlt hn =>
    rw [greedy_view_eq h hg, greedy_eq cap g, if_neg hlt, if_neg hlt, hn]
    simp only [if_neg hcap]

/-- One turn of growth towards targets. -/
theorem towardsTargets_eq (g : Growth σ) :
    towardsTargets g = match furthest 0 g.cands with
      | none => (.ok (), g)
      | some (i, c) =>
        if tilesFor c < UInt64.size then
          towardsTargets (g.settle i c (c.growToFirst (c.sizesUpTo (tilesFor c)) g.model))
        else (fault .overflow, g) := by
  rw [towardsTargets]
  split <;> rename_i hf <;> rw [hf]

private theorem towardsTargets_view (h : View f core) (hg : g.OnCore core) :
    towardsTargets (g.view f) = ((towardsTargets g).1, (towardsTargets g).2.view f) := by
  fun_induction towardsTargets g with
  | case1 g hf => rw [towardsTargets_eq, cands_view, hf]
  | case2 g i c hf hlt ih =>
    obtain ⟨k, _, hc, _⟩ := furthest_eq_some hf
    have hcore := hg c (List.mem_of_getElem? hc)
    rw [towardsTargets_eq, cands_view, hf]
    simp only [if_pos hlt]
    change towardsTargets ((g.view f).settle i c
      (c.growToFirst (c.sizesUpTo (tilesFor c)) (f g.model))) = _
    rw [Candidate.growToFirst_view h hcore]
    exact ih (hg.settle hcore i _)
  | case3 g i c hf hge =>
    rw [towardsTargets_eq, cands_view, hf]
    simp only [if_neg hge]

/-- Growth on a core is the same against every model that answers alike about the core. -/
theorem run_view (h : View f core) (strategy : UpsizeStrategy) {cands : List Candidate}
    (hc : ∀ c ∈ cands, c.core = core) (m : σ) :
    run strategy core cands (f m) =
      ((run strategy core cands m).1, (run strategy core cands m).2.view f) := by
  unfold run
  split
  · rename_i c
    rw [single, Candidate.growToFirst_view h (hc c (List.mem_singleton_self c))]
    rfl
  · exact congrArg _ (greedy_view h (g := ⟨_, m, []⟩) hc _)
  · rw [h.available]
    refine towardsTargets_view h (g := ⟨_, m, []⟩) fun d hd => ?_
    obtain ⟨c, hcm, rfl⟩ := List.mem_map.1 hd
    exact hc c hcm

end Growth

end Relay

end TorusRouting
