import TorusRouting.Proofs.Routing.Moves

/-!
# Balancing and the traffic of an op

The traffic into an op is counted over all pipes that feed it: the incoming leg of each, and the
outgoing leg of each loopback. Balancing decides on the pipes that the tally keeps, the last one for
each input, and never widens the difference between the networks over these. The other pipes into
the op stay where they are, so the difference over all pipes changes by the same amount. Where every
input is fed by one pipe the two differences are one; where pipes share an input, balancing can
widen the difference that counts.
-/

namespace TorusRouting

variable {e e' : Epoch} {config : Config} {oracle : Oracle} {ds : List Decision}
  {feeds : List Feed}

namespace Epoch

/-! ## Traffic -/

/-- The traffic into an op on a network: the incoming legs of all its pipes and the outgoing legs
of its loopbacks. -/
def traffic (ds : List Decision) (route : Decision → Option Route) (op : String) (n : Network) :
    Nat :=
  let pipes := ds.filter (·.cls.destOp = some op)
  pipes.countP (fun d => (route d).any (·.incoming = n)) +
    pipes.countP (fun d => d.cls.loopback && (route d).any (·.outgoing = n))

/-- The traffic into an op on `noc0` minus the traffic on `noc1`. -/
def imbalance (ds : List Decision) (route : Decision → Option Route) (op : String) : Int :=
  (traffic ds route op .noc0 : Int) - traffic ds route op .noc1

/-- The feeds of the decisions for an op. -/
def feedsOf (ds : List Decision) (op : String) : List Feed :=
  (ds.filter (·.cls.destOp = some op)).map (·.feed)

/-- The imbalance of an op is the pull of its pipes. -/
theorem imbalance_eq_pull {route : Decision → Option Route} {op : String}
    (h : ∀ d ∈ ds, route d = e.route? d.pipe) :
    imbalance ds route op = e.pull (feedsOf ds op) := by
  induction ds with
  | nil => rfl
  | cons d ds ih =>
    rw [List.forall_mem_cons] at h
    have hrest := ih h.2
    simp only [imbalance, traffic, feedsOf] at hrest ⊢
    by_cases hop : d.cls.destOp = some op
    · rw [List.filter_cons_of_pos (by simpa using hop), List.map_cons, pull, ← hrest]
      simp only [Decision.feed, ← h.1, List.countP_cons]
      cases route d with
      | none => simp
      | some l =>
        obtain ⟨incoming, outgoing, _, _⟩ := l
        cases incoming <;> cases outgoing <;> cases d.cls.loopback <;>
          simp [Route.pull, Network.sign] <;> omega
    · rw [List.filter_cons_of_neg (by simpa using hop)]
      exact hrest

end Epoch

/-- Moving up to half the excess does not widen the difference. -/
theorem Epoch.natAbs_excess_le {off : Network} {count moved : Nat}
    (h : e.excess feeds = some (off, count)) (hm : moved ≤ count) :
    (e.pull feeds - 2 * moved * off.sign).natAbs ≤ (e.pull feeds).natAbs := by
  unfold excess at h
  split at h
  · cases h
    simp only [Network.sign]
    omega
  · split at h
    · cases h
      simp only [Network.sign]
      omega
    · cases h

namespace Epoch

/-! ## Moves of loopbacks -/

/-- One loopback that moves changes the pull of any list that it is in once. -/
theorem pull_setPipe {f : Feed} {p p' : Pipe} {l : Route} (hn : (feeds.map (·.pipe)).Nodup)
    (hf : f ∈ feeds) (hloopback : f.loopback = true) (hp : e.pipes.get? f.pipe = some p)
    (hl : p.route? = some l) (hl' : p'.route? = some { l with outgoing := l.outgoing.other }) :
    (e.setPipe f.pipe p').pull feeds = e.pull feeds - 2 * l.outgoing.sign := by
  have hroute (id : PipeId) : (e.setPipe f.pipe p').route? id =
      if f.pipe = id then p'.route? else e.route? id := by
    rw [route?, get?_setPipe hp]
    split <;> rfl
  have hself : e.route? f.pipe = some l := by
    rw [route?, hp]
    exact hl
  induction feeds with
  | nil => cases hf
  | cons g feeds ih =>
    rw [List.map_cons, List.nodup_cons] at hn
    rw [pull, pull, hroute]
    rcases List.mem_cons.1 hf with rfl | hf
    · have hrest : (e.setPipe f.pipe p').pull feeds = e.pull feeds := by
        refine pull_congr fun g hg => ?_
        rw [hroute, if_neg]
        intro heq
        exact hn.1 (heq ▸ List.mem_map.2 ⟨g, hg, rfl⟩)
      rw [if_pos rfl, hl', hself, hrest, hloopback, Option.map_some, Option.map_some,
        Option.getD_some, Option.getD_some, Route.pull_other]
      omega
    · have hne : ¬ f.pipe = g.pipe := fun heq => hn.1 (heq ▸ List.mem_map.2 ⟨f, hf, rfl⟩)
      rw [if_neg hne, ih hn.2 hf]
      omega

/-- Pipes that are not moved keep their pull. -/
theorem Moves.pull_eq {ids : List PipeId} (h : Moves ids e e') (hd : ∀ f ∈ feeds, f.pipe ∉ ids) :
    e'.pull feeds = e.pull feeds := by
  refine pull_congr fun f hf => ?_
  rw [route?, h.get?_of_notMem (hd f hf), route?]

end Epoch

namespace Balancer

open Epoch

/-- The first feed is moved, or passed over where it leaves on the other network. -/
theorem flip_cons_eq_ok {off : Network} {count moved : Nat} {f : Feed} {fs : List Feed}
    (h : flip off (count + 1) (f :: fs) e = (.ok moved, e')) :
    flip off (count + 1) fs e = (.ok moved, e') ∨
      ∃ p p' l m, e.pipes.get? f.pipe = some p ∧ p.route? = some l ∧ l.outgoing = off ∧
        p'.route? = some { l with outgoing := l.outgoing.other } ∧ moved = m + 1 ∧
        flip off count fs (e.setPipe f.pipe p') = (.ok m, e') := by
  rw [flip] at h
  split at h
  · cases h
  · rename_i p hp
    split at h
    · rename_i hoff
      split at h
      · cases h
      · rename_i p' hp'
        cases hflip : flip off count fs (e.setPipe f.pipe p') with
        | mk outcome e₁ =>
          rw [hflip] at h
          cases outcome with
          | error x => cases h
          | ok m =>
            cases h
            obtain ⟨r, l, hr, _, hl, rfl⟩ := Pipe.rebalance_eq_ok.1 hp'
            have hroute : p.route? = some l := by
              rw [Pipe.route?, hr]
              exact hl
            rw [hroute] at hoff
            cases hoff
            exact Or.inr ⟨p, _, l, m, pipe_eq_ok.1 hp, hroute, rfl, rfl, rfl, hflip⟩
    · exact Or.inl h

private theorem flip_le {off : Network} {count moved : Nat} {fs : List Feed}
    (h : flip off count fs e = (.ok moved, e')) : moved ≤ count := by
  induction fs generalizing count moved e with
  | nil => cases count <;> cases h <;> exact Nat.zero_le _
  | cons f fs ih =>
    cases count with
    | zero =>
      cases h
      exact Nat.le_refl 0
    | succ count =>
      rcases flip_cons_eq_ok h with hrest | ⟨_, _, _, m, _, _, _, _, rfl, hrest⟩
      · exact ih hrest
      · exact Nat.succ_le_succ (ih hrest)

/-- Every move takes twice the sign of the network off the pull of any list that holds the
feeds. -/
theorem pull_flip {off : Network} {count moved : Nat} {fs : List Feed}
    (h : flip off count fs e = (.ok moved, e')) (hn : (feeds.map (·.pipe)).Nodup)
    (hs : ∀ f ∈ fs, f ∈ feeds ∧ f.loopback = true) :
    e'.pull feeds = e.pull feeds - 2 * moved * off.sign := by
  induction fs generalizing count moved e with
  | nil => cases count <;> cases h <;> simp
  | cons f fs ih =>
    rw [List.forall_mem_cons] at hs
    cases count with
    | zero =>
      cases h
      simp
    | succ count =>
      rcases flip_cons_eq_ok h with hrest | ⟨p, p', l, m, hp, hl, hoff, hl', rfl, hrest⟩
      · exact ih hrest hs.2
      · rw [ih hrest hs.2, pull_setPipe hn hs.1.1 hs.1.2 hp hl hl', hoff]
        cases off <;> simp only [Network.sign] <;> omega

/-- Balancing an op moves some of its switchable feeds and does not widen the difference over its
feeds. Every list that holds the switchable feeds changes its pull alike. -/
structure Levels (feeds : List Feed) (e e' : Epoch) : Prop where
  moves : Moves ((feeds.filter (·.switchable)).map (·.pipe)) e e'
  shift : (∀ f ∈ feeds, f.switchable = true → f.loopback = true) →
    ∃ shift : Int, (e.pull feeds - shift).natAbs ≤ (e.pull feeds).natAbs ∧
      ∀ fs : List Feed, (fs.map (·.pipe)).Nodup → feeds.filter (·.switchable) ⊆ fs →
        e'.pull fs = e.pull fs - shift

/-- Ops are levelled one after the other. Every switchable feed is a loopback, so each move counts
twice in the difference. -/
theorem balanceOps_cons_eq_ok {ops : List (List Feed)} {s s' : LoopbackStats}
    (h : balanceOps (feeds :: ops) s e = (.ok s', e')) :
    ∃ s₁ e₁, Levels feeds e e₁ ∧ balanceOps ops s₁ e₁ = (.ok s', e') := by
  rw [balanceOps] at h
  split at h
  · cases h
  · refine ⟨s, e, ⟨.refl _ e, fun _ => ⟨0, ?_, fun _ _ _ => ?_⟩⟩, h⟩ <;> simp
  · rename_i off count hexcess
    have hmoves := flip_moves off count (feeds.filter (·.switchable)) e
    split at h
    · cases h
    · rename_i moved e₁ hflip
      rw [hflip] at hmoves
      refine ⟨_, e₁, ⟨hmoves, fun hloop => ⟨2 * moved * off.sign, ?_, fun fs hn hs => ?_⟩⟩, h⟩
      · exact natAbs_excess_le (of_loadOf_excess hexcess).2.symm (flip_le hflip)
      · refine pull_flip hflip hn fun f hf => ⟨hs hf, ?_⟩
        obtain ⟨hf, hswitch⟩ := List.mem_filter.1 hf
        exact hloop f hf hswitch

/-- Balancing levels each listed op, after moves in the ops before it and before moves in those
after it. -/
theorem balanceOps_levels {before after : List (List Feed)} {s s' : LoopbackStats}
    (h : balanceOps (before ++ feeds :: after) s e = (.ok s', e')) :
    ∃ e₁ e₂, Moves ((before.flatten.filter (·.switchable)).map (·.pipe)) e e₁ ∧
      Levels feeds e₁ e₂ ∧ Moves ((after.flatten.filter (·.switchable)).map (·.pipe)) e₂ e' := by
  induction before generalizing s e with
  | nil =>
    obtain ⟨s₁, e₁, hlevels, h⟩ := balanceOps_cons_eq_ok h
    have hmoves := balanceOps_moves after s₁ e₁
    rw [h] at hmoves
    exact ⟨e, e₁, .refl _ e, hlevels, hmoves⟩
  | cons fs before ih =>
    obtain ⟨s₁, e₁, hlevels, h⟩ := balanceOps_cons_eq_ok h
    obtain ⟨e₂, e₃, hbefore, hhere, hafter⟩ := ih h
    refine ⟨e₂, e₃, ?_, hhere, hafter⟩
    rw [List.flatten_cons, List.filter_append, List.map_append]
    exact (hlevels.moves.mono (List.subset_append_left ..)).trans
      (hbefore.mono (List.subset_append_right ..))

end Balancer

namespace Epoch

/-! ## Decisions and the traffic they cause -/

/-- What is decided for a pipe into an op has a place in the tally. -/
theorem decisions_feeds (hd : e.decisions config oracle = .ok ds) {d : Decision} (hmem : d ∈ ds)
    {op : String} (hop : d.cls.destOp = some op) : d.Feeds op := by
  obtain ⟨p, _, hdecide⟩ := exists_left_of_forall₂ (mapM_eq_ok.1 hd) hmem
  obtain ⟨hc, hs, _⟩ := decidePipe_eq_ok hdecide
  obtain ⟨_, _, _, _, hcls⟩ := classifies_of_classify hc
  obtain ⟨l, hl, _⟩ := select_follows hs (hcls.of_destOp hop).1
  exact Decision.feeds_iff.2 ⟨hop, Option.isSome_iff_exists.2 ⟨l, hl⟩⟩

/-- The routes that are decided are those of the epoch they are written to. -/
theorem assignAll_route? (hk : e.WellKeyed) (hn : ∀ p ∈ e.pipes.values, p.routing = none)
    (hd : e.decisions config oracle = .ok ds) (ha : assignAll ds e = (.ok (), e')) :
    ∀ d ∈ ds, d.routing.route = e'.route? d.pipe := by
  intro d hmem
  obtain ⟨p, hp, hdecide⟩ := exists_left_of_forall₂ (mapM_eq_ok.1 hd) hmem
  obtain ⟨d', _, hdecide', hwritten⟩ := assignAll_written hk hn hd ha hp
  cases hdecide.symm.trans hdecide'
  rw [route?, (decidePipe_eq_ok hdecide).2.2, hwritten]
  rfl

/-- The tally keeps some of the pipes into an op. -/
theorem feedsOf_tallied_sublist (ds : List Decision) (op : String) :
    (feedsOf (tallied ds) op).Sublist (feedsOf ds op) :=
  ((tallied_sublist ds).filter _).map _

/-- The feeds of the decisions that the tally keeps are those it holds. -/
theorem feedsOf_tallied_perm (hf : ∀ d ∈ ds, ∀ op, d.cls.destOp = some op → d.Feeds op)
    (op : String) :
    (((tally ds).entries op).map (·.2)).Perm (feedsOf (tallied ds) op) := by
  have hfilter : (tallied ds).filter (·.Feeds op) =
      (tallied ds).filter (·.cls.destOp = some op) := by
    refine List.filter_congr fun d hd => decide_eq_decide.2 ?_
    exact ⟨fun h => (Decision.feeds_iff.1 h).1, hf d ((tallied_sublist ds).subset hd) op⟩
  have hperm := (entries_perm ds op).map (·.2)
  rw [hfilter, List.map_map] at hperm
  exact hperm

/-- Feeds of other ops are for other pipes. -/
theorem feedsOf_notMem (hn : (ds.map (·.pipe)).Nodup) {op : String}
    {others : List (String × List (UInt64 × Feed))} (hs : others ⊆ (tally ds).ops.toList)
    (hne : ∀ x ∈ others, x.1 ≠ op) {f : Feed} (hf : f ∈ feedsOf ds op) :
    f.pipe ∉ ((others.map fun x => x.2.map (·.2)).flatten.filter (·.switchable)).map (·.pipe) := by
  intro hmem
  obtain ⟨g, hg, heq⟩ := List.mem_map.1 hmem
  obtain ⟨feeds, hfeeds, hg⟩ := List.mem_flatten.1 (List.mem_filter.1 hg).1
  obtain ⟨⟨op', l⟩, hl, rfl⟩ := List.mem_map.1 hfeeds
  obtain ⟨d', hd', hfeeds', rfl⟩ := exists_decision_of_feed (hs hl) hg
  obtain ⟨d, hd, rfl⟩ := List.mem_map.1 hf
  obtain ⟨hd, hop⟩ := List.mem_filter.1 hd
  cases List.inj_on_of_nodup_map hn hd' hd heq
  have hsame := (Decision.feeds_iff.1 hfeeds').1.symm.trans (of_decide_eq_true hop)
  exact hne _ hl (Option.some.inj hsame)

/-- An op of the tally is levelled, and nothing else that balancing does touches its pipes. -/
theorem balance_levels (hn : (ds.map (·.pipe)).Nodup) {lb : LoopbackStats}
    (h : (tally ds).balance e = (.ok lb, e')) {op : String} {l : List (UInt64 × Feed)}
    (hl : (op, l) ∈ (tally ds).ops.toList) :
    ∃ e₁ e₂, Balancer.Levels (l.map (·.2)) e₁ e₂ ∧
      ∀ fs ⊆ feedsOf ds op, e₁.pull fs = e.pull fs ∧ e'.pull fs = e₂.pull fs := by
  obtain ⟨before, after, hsplit⟩ := List.append_of_mem hl
  obtain ⟨hbefore, hafter⟩ := Table.fst_ne_of_toList_eq hsplit
  rw [Balancer.balance, Table.values, List.map_map, hsplit, List.map_append, List.map_cons] at h
  obtain ⟨e₁, e₂, hmoves, hlevels, hmoves'⟩ := Balancer.balanceOps_levels h
  refine ⟨e₁, e₂, hlevels, fun fs hfs => ⟨?_, ?_⟩⟩
  · refine hmoves.pull_eq fun f hf => feedsOf_notMem hn ?_ hbefore (hfs hf)
    rw [hsplit]
    exact List.subset_append_left ..
  · refine hmoves'.pull_eq fun f hf => feedsOf_notMem hn ?_ hafter (hfs hf)
    rw [hsplit]
    exact List.subset_append_of_subset_right _ (List.subset_cons_self ..)

/-- The pipes into an op that the tally does not know stay where they are. -/
theorem balance_idle (hn : (ds.map (·.pipe)).Nodup) {lb : LoopbackStats}
    (h : (tally ds).balance e = (.ok lb, e')) {op : String}
    (hop : (tally ds).ops.get? op = none) {fs : List Feed} (hfs : fs ⊆ feedsOf ds op) :
    e'.pull fs = e.pull fs := by
  have hne : ∀ x ∈ (tally ds).ops.toList, x.1 ≠ op := by
    rintro ⟨op', l⟩ hx rfl
    cases hop.symm.trans (Table.get?_eq_some_iff.2 hx)
  have hmoves := Balancer.balanceOps_moves ((tally ds).ops.values.map (·.map (·.2))) {} e
  rw [← Balancer.balance, h, Table.values, List.map_map] at hmoves
  exact hmoves.pull_eq fun f hf => feedsOf_notMem hn (List.Subset.refl _) hne (hfs hf)

/-- Balancing does not widen the difference over the pipes that the tally keeps for an op. Any list
between these and all pipes into the op changes its pull alike. -/
theorem balance_pull (hn : (ds.map (·.pipe)).Nodup)
    (hf : ∀ d ∈ ds, ∀ op, d.cls.destOp = some op → d.Feeds op) {lb : LoopbackStats}
    (h : (tally ds).balance e = (.ok lb, e')) (op : String) :
    ∃ shift : Int, (e.pull (feedsOf (tallied ds) op) - shift).natAbs ≤
        (e.pull (feedsOf (tallied ds) op)).natAbs ∧
      ∀ fs : List Feed, fs.Sublist (feedsOf ds op) → feedsOf (tallied ds) op ⊆ fs →
        e'.pull fs = e.pull fs - shift := by
  cases hget : (tally ds).ops.get? op with
  | none =>
    refine ⟨0, by simp, fun fs hfs _ => ?_⟩
    rw [balance_idle hn h hget hfs.subset, Int.sub_zero]
  | some l =>
    have hl := Table.get?_eq_some_iff.1 hget
    obtain ⟨e₁, e₂, hlevels, hframe⟩ := balance_levels hn h hl
    have hperm : (l.map (·.2)).Perm (feedsOf (tallied ds) op) := by
      have hperm := feedsOf_tallied_perm hf op
      rw [Balancer.entries, hget] at hperm
      exact hperm
    have hloopback : ∀ f ∈ l.map (·.2), f.switchable = true → f.loopback = true := by
      intro f hf hswitch
      obtain ⟨d, _, _, rfl⟩ := exists_decision_of_feed hl hf
      exact (Bool.and_eq_true_iff.1 hswitch).1
    obtain ⟨shift, hle, hshift⟩ := hlevels.shift hloopback
    refine ⟨shift, ?_, fun fs hfs hsub => ?_⟩
    · rw [← (hframe _ (feedsOf_tallied_sublist ds op).subset).1, ← pull_perm hperm]
      exact hle
    · have hnodup : (fs.map (·.pipe)).Nodup := by
        refine List.Nodup.sublist (hfs.map _) ?_
        rw [feedsOf, List.map_map]
        exact hn.sublist (List.filter_sublist.map _)
      have hswitch : (l.map (·.2)).filter (·.switchable) ⊆ fs :=
        fun f hf => hsub (hperm.subset (List.mem_filter.1 hf).1)
      obtain ⟨hbefore, hafter⟩ := hframe fs hfs.subset
      rw [hafter, hshift fs hnodup hswitch, hbefore]

/-- Where every input of an op is fed by one pipe, the tally keeps all pipes into the op. -/
theorem filter_tallied_eq {op : String} (hf : ∀ d ∈ ds, d.cls.destOp = some op → d.Feeds op)
    (hi : ((ds.filter (·.cls.destOp = some op)).map (·.cls.input)).Nodup) :
    (tallied ds).filter (·.cls.destOp = some op) = ds.filter (·.cls.destOp = some op) := by
  induction ds with
  | nil => rfl
  | cons d ds ih =>
    rw [List.forall_mem_cons] at hf
    by_cases hop : d.cls.destOp = some op
    · rw [List.filter_cons_of_pos (by simpa using hop)] at hi ⊢
      rw [List.map_cons, List.nodup_cons] at hi
      have hplace : d.place? = some (op, d.cls.input) := hf.1 hop
      have hlast : ∀ d' ∈ ds, d'.place? ≠ d.place? := by
        intro d' hd' heq
        obtain ⟨hfeeds, hinput⟩ := Decision.feeds_of_place (heq.trans hplace)
        refine hi.1 (List.mem_map.2 ⟨d', List.mem_filter.2 ⟨hd', ?_⟩, hinput⟩)
        exact decide_eq_true (Decision.feeds_iff.1 hfeeds).1
      rw [tallied, if_pos ⟨by rw [hplace]; rfl, hlast⟩,
        List.filter_cons_of_pos (by simpa using hop), ih hf.2 hi.2]
    · rw [List.filter_cons_of_neg (by simpa using hop)] at hi ⊢
      rw [← ih hf.2 hi, tallied]
      split
      · rw [List.filter_cons_of_neg (by simpa using hop)]
      · rfl

/-- Routing an epoch without routings never widens the difference between the networks over the
pipes that the tally keeps: for each input of an op, the last one. The difference over all pipes
into the op changes by the same amount, so it does not grow either where every input of the op is
fed by one pipe. -/
theorem routePipes_imbalance (hk : e.WellKeyed) (hn : ∀ p ∈ e.pipes.values, p.routing = none)
    {stats : RouteStats} (h : e.routePipes config oracle = (.ok stats, e')) :
    ∃ ds, e.decisions config oracle = .ok ds ∧ ∀ op,
      (imbalance (tallied ds) (fun d => e'.route? d.pipe) op).natAbs ≤
        (imbalance (tallied ds) (·.routing.route) op).natAbs ∧
      imbalance ds (fun d => e'.route? d.pipe) op - imbalance ds (·.routing.route) op =
        imbalance (tallied ds) (fun d => e'.route? d.pipe) op -
          imbalance (tallied ds) (·.routing.route) op ∧
      (((ds.filter (·.cls.destOp = some op)).map (·.cls.input)).Nodup →
        (imbalance ds (fun d => e'.route? d.pipe) op).natAbs ≤
          (imbalance ds (·.routing.route) op).natAbs) := by
  obtain ⟨ds, e₁, lb, hd, hassign, hbalance⟩ := routePipes_eq_ok h
  refine ⟨ds, hd, fun op => ?_⟩
  have hroute := assignAll_route? hk hn hd hassign
  have hkept := feedsOf_tallied_sublist ds op
  obtain ⟨shift, hle, hshift⟩ := balance_pull (decisions_nodup hk hd)
    (fun d hmem _ => decisions_feeds hd hmem) hbalance op
  rw [imbalance_eq_pull hroute, imbalance_eq_pull fun _ _ => rfl, imbalance_eq_pull fun _ _ => rfl,
    imbalance_eq_pull fun d hmem => hroute d ((tallied_sublist ds).subset hmem),
    hshift _ hkept (List.Subset.refl _), hshift _ (.refl _) hkept.subset]
  refine ⟨hle, by omega, fun hinputs => ?_⟩
  have hall : feedsOf (tallied ds) op = feedsOf ds op :=
    congrArg _ (filter_tallied_eq (fun d hmem => decisions_feeds hd hmem) hinputs)
  rw [hall] at hle
  exact hle

/-- Both gathers pull towards `noc0`, and feed an input each. -/
theorem routePipes_imbalance_twoGathers :
    twoGathers.WellKeyed ∧ (∀ p ∈ twoGathers.pipes.values, p.routing = none) ∧
    ∃ stats e' ds, twoGathers.routePipes {} .adjacent = (.ok stats, e') ∧
      twoGathers.decisions {} .adjacent = .ok ds ∧
      ((ds.filter (·.cls.destOp = some "sum")).map (·.cls.input)).Nodup ∧
      imbalance ds (·.routing.route) "sum" = 4 ∧
      (imbalance ds (fun d => e'.route? d.pipe) "sum").natAbs ≤ 4 := by
  have hk : twoGathers.WellKeyed := by decide
  have hn : ∀ p ∈ twoGathers.pipes.values, p.routing = none := by decide
  have hstats : (twoGathers.routePipes {} .adjacent).1 =
      .ok ⟨2, 0, 0, ⟨2, 0⟩, ⟨0, 2⟩, 0, 0, 2, ⟨1, 2⟩⟩ := by decide
  have hinputs : (twoGathers.decisions {} .adjacent).map (fun ds =>
      ((ds.filter (·.cls.destOp = some "sum")).map (·.cls.input),
        imbalance ds (·.routing.route) "sum")) = .ok ([0, 2], 4) := by decide
  obtain ⟨e', h⟩ : ∃ e', twoGathers.routePipes {} .adjacent =
      (.ok ⟨2, 0, 0, ⟨2, 0⟩, ⟨0, 2⟩, 0, 0, 2, ⟨1, 2⟩⟩, e') := ⟨_, Prod.ext hstats rfl⟩
  obtain ⟨ds, hd, hop⟩ := routePipes_imbalance hk hn h
  rw [hd] at hinputs
  obtain ⟨hinputs, hbefore⟩ := Prod.mk.inj (Except.ok.inj hinputs)
  have hnodup : ((ds.filter (·.cls.destOp = some "sum")).map (·.cls.input)).Nodup := by
    rw [hinputs]
    decide
  have hafter := (hop "sum").2.2 hnodup
  rw [hbefore] at hafter
  exact ⟨hk, hn, _, e', ds, h, hd, hnodup, hbefore, hafter⟩

/-- A gather into an op whose input is fed by two more pipes before it. -/
def sharedInput : Epoch where
  index := 0
  device := { gridX := 8, gridY := 4, ethernet := [], l1Bytes := 1024, reservedBytes := 0 }
  ops := .ofList [("sum", ⟨"sum", 0, 2, 0, 3, 1, false, false, [{}]⟩)]
  buffers := .ofList [
    (⟨1⟩, ⟨⟨1⟩, .relay, ⟨0, 5, 0⟩, none, none, 16, 2, 8, 2⟩),
    (⟨2⟩, ⟨⟨2⟩, .relay, ⟨0, 0, 0⟩, none, none, 16, 2, 8, 2⟩),
    (⟨3⟩, ⟨⟨3⟩, .relay, ⟨0, 1, 0⟩, none, none, 16, 2, 8, 2⟩),
    (⟨4⟩, ⟨⟨4⟩, .opInput, ⟨0, 4, 0⟩, none, some (.consumer "sum" 0), 16, 2, 8, 2⟩),
    (⟨5⟩, ⟨⟨5⟩, .opInput, ⟨0, 3, 0⟩, none, some (.consumer "sum" 0), 16, 2, 8, 2⟩),
    (⟨6⟩, ⟨⟨6⟩, .opInput, ⟨0, 2, 0⟩, none, some (.consumer "sum" 0), 16, 2, 8, 2⟩)]
  pipes := .ofList [
    (⟨10⟩, ⟨⟨10⟩, [⟨1⟩], [[⟨4⟩]], [], none⟩),
    (⟨20⟩, ⟨⟨20⟩, [⟨1⟩], [[⟨5⟩]], [], none⟩),
    (⟨30⟩, ⟨⟨30⟩, [⟨2⟩, ⟨3⟩], [[⟨6⟩]], [], none⟩)]

/-- Balancing can widen the difference: here the legs of the gather on `noc0` stand against the
other two pipes on `noc1`, but the tally keeps the gather alone and moves it. -/
theorem sharedInput_widened :
    sharedInput.WellKeyed ∧ (∀ p ∈ sharedInput.pipes.values, p.routing = none) ∧
    ∃ stats e' ds, sharedInput.routePipes {} .adjacent = (.ok stats, e') ∧
      sharedInput.decisions {} .adjacent = .ok ds ∧
      imbalance ds (·.routing.route) "sum" = 0 ∧
      imbalance ds (fun d => e'.route? d.pipe) "sum" = -2 := by
  have hstats : (sharedInput.routePipes {} .adjacent).1 =
      .ok ⟨3, 0, 0, ⟨1, 2⟩, ⟨2, 1⟩, 0, 0, 1, ⟨1, 1⟩⟩ := by decide
  have himbalance : (sharedInput.decisions {} .adjacent).map (fun ds =>
      (imbalance ds (·.routing.route) "sum",
        imbalance ds (fun d => (sharedInput.routePipes {} .adjacent).2.route? d.pipe) "sum")) =
      .ok (0, -2) := by decide
  refine ⟨by decide, by decide, ?_⟩
  cases hd : sharedInput.decisions {} .adjacent with
  | error f =>
    rw [hd] at himbalance
    cases himbalance
  | ok ds =>
    rw [hd] at himbalance
    obtain ⟨hbefore, hafter⟩ := Prod.mk.inj (Except.ok.inj himbalance)
    exact ⟨_, _, ds, Prod.ext hstats rfl, rfl, hbefore, hafter⟩

end Epoch

end TorusRouting
