import Mathlib.Data.List.Dedup
import TorusRouting.Proofs.Routing.Evening

/-!
# What the statistics of a routing count

Some counts are taken from the decisions, some by the balancer, and some from the epoch after it.
Every decision is written into its pipe, and a move changes nothing of it but the network that the
pipe leaves on and the mark of the move. So all of them count pipes of the routed epoch, and the
rebalanced ops are those into which a marked pipe leads.
-/

namespace TorusRouting

/-- The paths of a pipe do not all keep to the box of its network. -/
def Fit.isBestEffort : Fit → Bool
  | .exact => false
  | .bestEffort _ => true

private theorem Fit.isBestEffort_eq (f : Fit) : f.isBestEffort = (f != .exact) := by
  cases f <;> rfl

/-- Related elements that pass two tests alike are counted alike. -/
theorem countP_eq_of_forall₂ {α β : Type} {R : α → β → Prop} {f : α → Bool} {g : β → Bool}
    {l : List α} {m : List β} (h : List.Forall₂ R l m) (hfg : ∀ a b, R a b → f a = g b) :
    l.countP f = m.countP g := by
  induction h with
  | nil => rfl
  | cons hab _ ih => rw [List.countP_cons, List.countP_cons, hfg _ _ hab, ih]

/-- What is combined from related elements is related to the second of them. -/
theorem forall₂_zipWith {α β γ : Type} {R : α → β → Prop} {S : β → γ → Prop} {f : α → β → γ}
    {l : List α} {m : List β} (h : List.Forall₂ R l m) (hS : ∀ a b, R a b → S b (f a b)) :
    List.Forall₂ S m (List.zipWith f l m) := by
  induction h with
  | nil => exact .nil
  | cons hab _ ih => exact .cons (hS _ _ hab) ih

namespace Pipe

/-- The pipe has been moved to the other network. -/
def isRebalanced (p : Pipe) : Bool := p.routing.any (·.rebalanced)

/-- The pipe has a routing, but no way over the on-chip networks. -/
def isOffChip (p : Pipe) : Bool := p.routing.any (·.route.isNone)

end Pipe

namespace Epoch

/-- The op that a pipe leads into: the one that owns its first output buffer as a consumer. -/
def destOp? (e : Epoch) (p : Pipe) : Option String :=
  (p.firstOutput?.bind e.buffers.get?).bind fun dst => (e.consumerOf dst).toOption.map (·.1.name)

/-- The ops that some moved pipe leads into. -/
def rebalancedOps (e : Epoch) : List String :=
  ((e.pipes.values.filter (·.isRebalanced)).filterMap e.destOp?).dedup

end Epoch

/-- The counts are those of the pipes of the epoch. -/
structure RouteStats.Describes (s : RouteStats) (e : Epoch) : Prop where
  routed : ∀ p ∈ e.pipes.values, p.routing.isSome
  pipes : s.pipes = e.pipes.values.length
  ethernet : s.ethernet = e.pipes.values.countP (·.isOffChip)
  incoming : ∀ n, s.incoming.get n = e.pipes.values.countP (·.route?.any (·.incoming = n))
  outgoing : ∀ n, s.outgoing.get n = e.pipes.values.countP (·.route?.any (·.outgoing = n))
  direct : s.direct = e.pipes.values.countP (·.routing.any (·.direct))
  bestEffort : s.bestEffort = e.pipes.values.countP (·.routing.any (·.fit.isBestEffort))
  flipped : s.loopback.pipesFlipped = e.pipes.values.countP (·.isRebalanced)
  ops : s.loopback.opsRebalanced = e.rebalancedOps.length

namespace RouteStats.Describes

variable {s : RouteStats} {e : Epoch}

/-- Every routed pipe is off the chip, or on one of the networks. -/
theorem countP_networks {ps : List Pipe} (h : ∀ p ∈ ps, p.routing.isSome)
    (side : Route → Network) :
    ps.countP (·.route?.any (side · = .noc0)) + ps.countP (·.route?.any (side · = .noc1)) +
      ps.countP (·.isOffChip) = ps.length := by
  induction ps with
  | nil => rfl
  | cons p ps ih =>
    rw [List.forall_mem_cons] at h
    obtain ⟨r, hr⟩ := Option.isSome_iff_exists.1 h.1
    have ih := ih h.2
    have hroute : p.route? = r.route := by
      rw [Pipe.route?, hr]
      rfl
    have hoff : p.isOffChip = r.route.isNone := by
      rw [Pipe.isOffChip, hr]
      rfl
    simp only [List.countP_cons, List.length_cons, hroute, hoff]
    cases r.route with
    | none =>
      simp
      omega
    | some l =>
      cases hside : side l <;> simp [hside] <;> omega

private theorem incoming_add (h : s.Describes e) :
    s.incoming.noc0 + s.incoming.noc1 + s.ethernet = s.pipes := by
  have hsum := countP_networks h.routed (·.incoming)
  rwa [← h.incoming, ← h.incoming, ← h.ethernet, ← h.pipes] at hsum

private theorem outgoing_add (h : s.Describes e) :
    s.outgoing.noc0 + s.outgoing.noc1 + s.ethernet = s.pipes := by
  have hsum := countP_networks h.routed (·.outgoing)
  rwa [← h.outgoing, ← h.outgoing, ← h.ethernet, ← h.pipes] at hsum

end RouteStats.Describes

namespace Epoch

variable {e e' e₁ : Epoch} {config : Config} {oracle : Oracle} {ds : List Decision}
  {stats : RouteStats} {ids : List PipeId} {d : Decision} {p : Pipe}

/-! ## One pipe -/

/-- Moving pipes changes them where they stand. -/
theorem values_move (hk : e.pipes.KeyedBy (·.id)) (hn : ids.Nodup) :
    (e.move ids).pipes.values = e.pipes.values.map fun p => if p.id ∈ ids then p.moved else p := by
  induction ids generalizing e with
  | nil => simp [move]
  | cons j ids ih =>
    rw [List.nodup_cons] at hn
    have hkeyed : (e.pipes.modify j Pipe.moved).KeyedBy (·.id) := by
      intro x hx
      obtain ⟨y, hy, rfl⟩ := List.mem_map.1 hx
      have hkey := hk y hy
      split
      · exact hkey
      · exact hkey
    change ((({ e with pipes := e.pipes.modify j Pipe.moved } : Epoch).move ids).pipes.values) = _
    rw [ih hkeyed hn.2, hk.values_modify, List.map_map]
    refine List.map_congr_left fun p _ => ?_
    rw [Function.comp_apply]
    by_cases hj : p.id = j
    · have hrest : p.moved.id ∉ ids := fun hmem => hn.1 (hj ▸ hmem)
      rw [if_pos hj, if_neg hrest, if_pos (hj ▸ List.mem_cons_self ..)]
    · have hmem : p.id ∈ j :: ids ↔ p.id ∈ ids := List.mem_cons.trans (or_iff_right hj)
      rw [if_neg hj, if_congr hmem rfl rfl]

/-- A pipe of the routed epoch holds what was decided for it, moved if it is listed. -/
structure SettledAs (e : Epoch) (config : Config) (oracle : Oracle) (ids : List PipeId)
    (d : Decision) (p : Pipe) : Prop where
  id : p.id = d.pipe
  decided : e.decidePipe config oracle { p with routing := none } = .ok d
  routing : p.routing = some (if d.pipe ∈ ids then d.routing.moved else d.routing)

namespace SettledAs

variable (h : e.SettledAs config oracle ids d p)

include h

/-- What a move does not change can be read off the decision. -/
theorem routing_any (f : Routing → Bool) (hf : ∀ r : Routing, f r.moved = f r) :
    p.routing.any f = f d.routing := by
  rw [h.routing, Option.any_some]
  split
  · exact hf d.routing
  · rfl

/-- Exactly the ethernet pipes stay off the on-chip networks. -/
theorem isOffChip_eq : p.isOffChip = d.cls.ethernet := by
  obtain ⟨hc, hs, _⟩ := decidePipe_eq_ok h.decided
  rw [Pipe.isOffChip, h.routing_any (·.route.isNone) fun r => Option.isNone_map ..]
  cases heth : d.cls.ethernet with
  | true =>
    obtain ⟨_, _, _, _, _, hroute⟩ := select_eq_ok hs
    rw [selectRoute, heth, if_pos rfl] at hroute
    rw [← (Prod.mk.inj (Except.ok.inj hroute)).1]
    rfl
  | false =>
    obtain ⟨l, hl, _⟩ := select_follows hs heth
    rw [hl]
    rfl

/-- Exactly the listed pipes are marked. -/
theorem isRebalanced_eq : p.isRebalanced = decide (d.pipe ∈ ids) := by
  rw [Pipe.isRebalanced, h.routing, Option.any_some]
  split
  · rename_i hmem
    rw [decide_eq_true hmem]
    rfl
  · rename_i hmem
    rw [select_rebalanced (decidePipe_eq_ok h.decided).2.1, decide_eq_false hmem]

/-- A decision for an op is for the one that the pipe leads into. -/
theorem destOp?_eq (hroute : e.Rerouted e') {op : String} (hop : d.cls.destOp = some op) :
    e'.destOp? p = some op := by
  obtain ⟨hc, _, _⟩ := decidePipe_eq_ok h.decided
  obtain ⟨src, dst, hends, _, hcls⟩ := classifies_of_classify hc
  obtain ⟨heth, hdest⟩ := hcls.of_destOp hop
  obtain ⟨_, consumer, input, hdelivers⟩ := hcls.delivers heth hdest
  obtain ⟨id, hid, hdst⟩ := hends.dest
  have hid : p.firstOutput? = some id := hid
  have hconsumer : e'.consumerOf dst = .ok (consumer, input) := by
    rw [consumerOf_eq_ok, hroute.ops, ← consumerOf_eq_ok]
    exact hdelivers.receiver
  rw [destOp?, hid, Option.bind_some, hroute.buffers, hdst, Option.bind_some, hconsumer, ← hop,
    hdelivers.destOp]
  rfl

end SettledAs

/-! ## A whole run -/

/-- The decisions of a run, written into its pipes. -/
theorem assignAll_values (hk : e.WellKeyed) (hn : ∀ p ∈ e.pipes.values, p.routing = none)
    (hd : e.decisions config oracle = .ok ds) (ha : assignAll ds e = (.ok (), e₁)) :
    e₁.pipes.values = List.zipWith Pipe.written e.pipes.values ds := by
  have hv : e.pipes.values = [] ++ (e.pipes.values ++ []) := (List.append_nil _).symm
  obtain ⟨e₂, heq, _, hvalues⟩ := assignAll_unrouted hk hv (decisions_pipe hd) hn []
  rw [List.append_nil] at heq
  cases ha.symm.trans heq
  rwa [List.append_nil, List.nil_append] at hvalues

/-- Every feed of the tally that may be moved is a loopback. -/
theorem loopback_of_tally {feed : Feed}
    (h : feed ∈ ((tally ds).ops.values.map (·.map (·.2))).flatten)
    (hswitch : feed.switchable = true) : feed.loopback = true := by
  obtain ⟨feeds, hfeeds, hfeed⟩ := List.mem_flatten.1 h
  obtain ⟨l, hl, rfl⟩ := List.mem_map.1 hfeeds
  obtain ⟨op, hop⟩ := Table.mem_values.1 hl
  obtain ⟨d, _, _, rfl⟩ := exists_decision_of_feed hop hfeed
  exact (Bool.and_eq_true_iff.1 hswitch).1

/-- The feeds that balancing the tally moves. -/
def tallyFlips (e : Epoch) (ds : List Decision) : List Feed :=
  ((tally ds).ops.values.map (·.map (·.2))).flatMap e.flips

/-- Every feed that is moved is that of a decision for the op it is listed under. -/
theorem exists_decision_of_flip {feed : Feed} (h : feed ∈ e.tallyFlips ds) :
    ∃ op l, (op, l) ∈ (tally ds).ops.toList ∧ feed ∈ e.flips (l.map (·.2)) ∧
      ∃ d ∈ ds, d.cls.destOp = some op ∧ d.cls.loopback = true ∧ feed.pipe = d.pipe := by
  obtain ⟨feeds, hfeeds, hfeed⟩ := List.mem_flatMap.1 h
  obtain ⟨l, hl, rfl⟩ := List.mem_map.1 hfeeds
  obtain ⟨op, hop⟩ := Table.mem_values.1 hl
  obtain ⟨d, hd, hfeeds, rfl⟩ := exists_decision_of_feed hop ((e.flips_sublist _).subset hfeed)
  have hswitch := (Bool.and_eq_true_iff.1 (movable_of_mem_flips hfeed)).2
  exact ⟨op, l, hop, hfeed, d, hd, (Decision.feeds_iff.1 hfeeds).1,
    (Bool.and_eq_true_iff.1 hswitch).1, rfl⟩

/-- Routing writes the decisions and moves the flips of the tally, and nothing else. -/
theorem routePipes_settles (hk : e.WellKeyed) (hn : ∀ p ∈ e.pipes.values, p.routing = none)
    (h : e.routePipes config oracle = (.ok stats, e')) :
    ∃ (ds : List Decision) (e₁ : Epoch), e.decisions config oracle = .ok ds ∧
      stats = routeStats ds
        ⟨((tally ds).ops.values.map (·.map (·.2))).countP (e₁.flips · ≠ []),
          (e₁.tallyFlips ds).length⟩ e' ∧
      ((e₁.tallyFlips ds).map (·.pipe)).Nodup ∧
      List.Forall₂ (e.SettledAs config oracle ((e₁.tallyFlips ds).map (·.pipe))) ds
        e'.pipes.values := by
  obtain ⟨ds, e₁, lb, hd, ha, hb⟩ := routePipes_eq_ok h
  obtain ⟨e₂, heq, hroute, _, hmovable⟩ := assignAll_fresh hk hn hd
  cases ha.symm.trans heq
  have hnodup := Balancer.tally_pipes_nodup (decisions_nodup hk hd)
  have hmovable := hmovable.mono (Balancer.tally_pipes ds).subset
  rw [← Balancer.flatten_pipes] at hnodup hmovable
  have hflips : ((e₁.tallyFlips ds).map (·.pipe)).Nodup :=
    hnodup.sublist ((Balancer.flips_flatMap_sublist e₁ _).map _)
  have hfits : ∀ feeds ∈ (tally ds).ops.values.map (·.map (·.2)), e₁.LoadFits feeds := by
    rcases Balancer.balanceOps_cases {} hnodup hmovable with ⟨_, _, _, hfits⟩ | ⟨hfault, _⟩
    · exact hfits
    · rw [← Balancer.balance, hb] at hfault
      cases hfault
  have hbalance :=
    Balancer.balanceOps_eq {} hnodup hmovable (fun f hf => loopback_of_tally hf) hfits
  rw [← Balancer.balance, hb, Nat.zero_add, Nat.zero_add] at hbalance
  obtain ⟨hlb, rfl⟩ := Prod.mk.inj hbalance
  cases hlb
  refine ⟨ds, e₁, hd, ?_, hflips, ?_⟩
  · rw [routePipes] at h
    split at h
    · cases h
    · rw [routeValid, hd] at h
      dsimp only at h
      rw [ha] at h
      dsimp only at h
      rw [hb] at h
      cases h
      rfl
  · have hrel := (List.forall₂_and_left ..).2 ⟨hn, mapM_eq_ok.1 hd⟩
    change List.Forall₂ _ _ (e₁.move ((e₁.tallyFlips ds).map (·.pipe))).pipes.values
    rw [values_move (hroute.wellKeyed hk).pipes hflips, assignAll_values hk hn hd ha,
      List.map_zipWith]
    refine forall₂_zipWith hrel fun p d hpd => ?_
    obtain ⟨hnone, hdecide⟩ := hpd
    have hid := (decidePipe_eq_ok hdecide).2.2
    have horigin : ({ p with routing := none } : Pipe) = p := by rw [← hnone]
    have hwritten : (p.written d).id = d.pipe := hid.symm
    rw [hwritten]
    by_cases hmem : d.pipe ∈ (e₁.tallyFlips ds).map (·.pipe)
    · rw [if_pos hmem]
      exact ⟨hid.symm, horigin.symm ▸ hdecide, by rw [if_pos hmem]; rfl⟩
    · rw [if_neg hmem]
      exact ⟨hid.symm, horigin.symm ▸ hdecide, by rw [if_neg hmem]; rfl⟩

/-! ## Flipped pipes and rebalanced ops -/

/-- The routes on a network, counted as their pipes. -/
theorem countP_routes (ps : List Pipe) (side : Route → Network) (n : Network) :
    (ps.filterMap (·.route?)).countP (side · == n) = ps.countP (·.route?.any (side · = n)) := by
  rw [List.countP_filterMap]
  refine List.countP_congr fun p _ => ?_
  cases p.route? <;> simp

section

variable (hn : (ds.map (·.pipe)).Nodup)

include hn

/-- A decision whose pipe is moved is for a loopback, into an op with something to move. Each pipe
was decided once. -/
theorem flips_of_decision (hd : d ∈ ds) (hmem : d.pipe ∈ (e.tallyFlips ds).map (·.pipe)) :
    ∃ op l, (op, l) ∈ (tally ds).ops.toList ∧ e.flips (l.map (·.2)) ≠ [] ∧
      d.cls.destOp = some op ∧ d.cls.loopback = true := by
  obtain ⟨feed, hfeed, hpipe⟩ := List.mem_map.1 hmem
  obtain ⟨op, l, hl, hflip, d', hd', hdest, hloopback, heq⟩ := exists_decision_of_flip hfeed
  cases List.inj_on_of_nodup_map hn hd' hd (heq.symm.trans hpipe)
  exact ⟨op, l, hl, List.ne_nil_of_mem hflip, hdest, hloopback⟩

/-- There are as many moves as decisions whose pipe is moved. -/
theorem length_tallyFlips (hflips : ((e.tallyFlips ds).map (·.pipe)).Nodup) :
    (e.tallyFlips ds).length = ds.countP (·.pipe ∈ (e.tallyFlips ds).map (·.pipe)) := by
  have hperm : ((ds.map (·.pipe)).filter (· ∈ (e.tallyFlips ds).map (·.pipe))).Perm
      ((e.tallyFlips ds).map (·.pipe)) := by
    refine (List.perm_ext_iff_of_nodup (hn.filter _) hflips).2 fun id => ?_
    rw [List.mem_filter, decide_eq_true_eq, and_iff_right_iff_imp]
    intro hid
    obtain ⟨feed, hfeed, rfl⟩ := List.mem_map.1 hid
    obtain ⟨_, _, _, _, d, hd, _, _, heq⟩ := exists_decision_of_flip hfeed
    exact heq ▸ List.mem_map.2 ⟨d, hd, rfl⟩
  have hlength := hperm.length_eq
  rw [← List.countP_eq_length_filter, List.countP_map, List.length_map] at hlength
  exact hlength.symm

/-- An op has something to move exactly if the pipe of some decision for it is moved. -/
theorem exists_flips_iff {op : String} :
    (∃ l, (op, l) ∈ (tally ds).ops.toList ∧ e.flips (l.map (·.2)) ≠ []) ↔
      ∃ d ∈ ds, d.pipe ∈ (e.tallyFlips ds).map (·.pipe) ∧ d.cls.destOp = some op := by
  constructor
  · rintro ⟨l, hl, hflips⟩
    obtain ⟨feed, hfeed⟩ := List.exists_mem_of_ne_nil _ hflips
    obtain ⟨d, hd, hfeeds, rfl⟩ := exists_decision_of_feed hl ((e.flips_sublist _).subset hfeed)
    refine ⟨d, hd, List.mem_map.2 ⟨d.feed, ?_, rfl⟩, (Decision.feeds_iff.1 hfeeds).1⟩
    exact List.mem_flatMap.2 ⟨_, List.mem_map.2 ⟨l, Table.mem_values.2 ⟨op, hl⟩, rfl⟩, hfeed⟩
  · rintro ⟨d, hd, hmem, hdest⟩
    obtain ⟨op', l, hl, hflips, hdest', _⟩ := flips_of_decision hn hd hmem
    cases hdest.symm.trans hdest'
    exact ⟨l, hl, hflips⟩

/-- The ops with something to move are those into which a marked pipe leads. -/
theorem mem_rebalancedOps_iff (hroute : e.Rerouted e')
    (hsettled : List.Forall₂ (e.SettledAs config oracle ((e₁.tallyFlips ds).map (·.pipe))) ds
      e'.pipes.values) {op : String} :
    op ∈ e'.rebalancedOps ↔
      ∃ d ∈ ds, d.pipe ∈ (e₁.tallyFlips ds).map (·.pipe) ∧ d.cls.destOp = some op := by
  rw [rebalancedOps, List.mem_dedup, List.mem_filterMap]
  constructor
  · rintro ⟨p, hp, hop⟩
    obtain ⟨hp, hmarked⟩ := List.mem_filter.1 hp
    obtain ⟨d, hd, h⟩ := exists_left_of_forall₂ hsettled hp
    rw [h.isRebalanced_eq, decide_eq_true_eq] at hmarked
    obtain ⟨op', _, _, _, hdest, _⟩ := flips_of_decision hn hd hmarked
    cases hop.symm.trans (h.destOp?_eq hroute hdest)
    exact ⟨d, hd, hmarked, hdest⟩
  · rintro ⟨d, hd, hmem, hdest⟩
    obtain ⟨p, hp, h⟩ := exists_right_of_forall₂ hsettled hd
    refine ⟨p, List.mem_filter.2 ⟨hp, ?_⟩, h.destOp?_eq hroute hdest⟩
    rw [h.isRebalanced_eq, decide_eq_true hmem]

/-- The balancer counts an op once, and only if it moves a pipe that leads into it. -/
theorem countP_flips_eq (hroute : e.Rerouted e')
    (hsettled : List.Forall₂ (e.SettledAs config oracle ((e₁.tallyFlips ds).map (·.pipe))) ds
      e'.pipes.values) :
    ((tally ds).ops.values.map (·.map (·.2))).countP (e₁.flips · ≠ []) =
      e'.rebalancedOps.length := by
  let names := ((tally ds).ops.toList.filter fun x => e₁.flips (x.2.map (·.2)) ≠ []).map (·.1)
  have hnames : names.Nodup := (tally ds).ops.distinct.sublist (List.filter_sublist.map _)
  have hdistinct : e'.rebalancedOps.Nodup := List.nodup_dedup _
  have hperm : names.Perm e'.rebalancedOps := by
    refine (List.perm_ext_iff_of_nodup hnames hdistinct).2 fun op => ?_
    rw [mem_rebalancedOps_iff hn hroute hsettled, ← exists_flips_iff hn]
    simp [names]
  rw [← hperm.length_eq, List.length_map, ← List.countP_eq_length_filter, List.countP_map,
    Table.values, List.countP_map]
  rfl

/-- The counts of a run are those of the pipes that it leaves behind. -/
theorem describes_of_settled (hroute : e.Rerouted e')
    (hflips : ((e₁.tallyFlips ds).map (·.pipe)).Nodup)
    (hsettled : List.Forall₂ (e.SettledAs config oracle ((e₁.tallyFlips ds).map (·.pipe))) ds
      e'.pipes.values) :
    (routeStats ds ⟨((tally ds).ops.values.map (·.map (·.2))).countP (e₁.flips · ≠ []),
      (e₁.tallyFlips ds).length⟩ e').Describes e' where
  routed := by
    intro p hp
    obtain ⟨_, _, h⟩ := exists_left_of_forall₂ hsettled hp
    rw [h.routing]
    rfl
  pipes := hsettled.length_eq
  ethernet := countP_eq_of_forall₂ hsettled fun _ _ h => h.isOffChip_eq.symm
  incoming n := by
    rw [routeStats, PerNetwork.get_ofFn]
    exact countP_routes _ (·.incoming) n
  outgoing n := by
    rw [routeStats, PerNetwork.get_ofFn]
    exact countP_routes _ (·.outgoing) n
  direct := countP_eq_of_forall₂ hsettled fun _ _ h => (h.routing_any (·.direct) fun _ => rfl).symm
  bestEffort := by
    refine countP_eq_of_forall₂ hsettled fun d _ h => ?_
    rw [h.routing_any (·.fit.isBestEffort) fun _ => rfl, Fit.isBestEffort_eq]
  flipped := by
    refine (length_tallyFlips hn hflips).trans (countP_eq_of_forall₂ hsettled fun _ _ h => ?_)
    exact h.isRebalanced_eq.symm
  ops := countP_flips_eq hn hroute hsettled

end

/-- Routing an epoch without routings returns the counts of the epoch it leaves behind. In both
directions the networks share the pipes that are not on ethernet. Every flipped pipe is a loopback,
and leads into an op that is counted as rebalanced. -/
theorem routeStats_describes (hk : e.WellKeyed) (hn : ∀ p ∈ e.pipes.values, p.routing = none)
    (h : e.routePipes config oracle = (.ok stats, e')) :
    stats.Describes e' ∧
      stats.incoming.noc0 + stats.incoming.noc1 + stats.ethernet = stats.pipes ∧
      stats.outgoing.noc0 + stats.outgoing.noc1 + stats.ethernet = stats.pipes ∧
      stats.loopback.pipesFlipped ≤ stats.loopbacks ∧
      ∀ p ∈ e'.pipes.values, p.isRebalanced → ∃ op ∈ e'.rebalancedOps, e'.destOp? p = some op := by
  obtain ⟨ds, e₁, hd, rfl, hflips, hsettled⟩ := routePipes_settles hk hn h
  have hroute := routePipes_rerouted e config oracle
  rw [h] at hroute
  have hnodup := decisions_nodup hk hd
  have hdescribes := describes_of_settled hnodup hroute hflips hsettled
  refine ⟨hdescribes, hdescribes.incoming_add, hdescribes.outgoing_add, ?_, fun p hp hmarked => ?_⟩
  · change (e₁.tallyFlips ds).length ≤ ds.countP (·.cls.loopback)
    rw [length_tallyFlips hnodup hflips]
    refine List.countP_mono_left fun d hmem hmoved => ?_
    obtain ⟨_, _, _, _, _, hloopback⟩ := flips_of_decision hnodup hmem (of_decide_eq_true hmoved)
    exact hloopback
  · obtain ⟨d, hmem, hsettles⟩ := exists_left_of_forall₂ hsettled hp
    rw [hsettles.isRebalanced_eq, decide_eq_true_eq] at hmarked
    obtain ⟨op, _, _, _, hdest, _⟩ := flips_of_decision hnodup hmem hmarked
    refine ⟨op, ?_, hsettles.destOp?_eq hroute hdest⟩
    exact (mem_rebalancedOps_iff hnodup hroute hsettled).2 ⟨d, hmem, hmarked, hdest⟩

/-- Under an oracle that always answers `noc1`, both gathers are moved, and lead into one op. -/
theorem routeStats_describes_gathersAndBroadcast :
    gathersAndBroadcast.WellKeyed ∧
    (∀ p ∈ gathersAndBroadcast.pipes.values, p.routing = none) ∧
    ∃ stats e', gathersAndBroadcast.routePipes {} (.constant (some .noc1)) = (.ok stats, e') ∧
      stats.Describes e' ∧ e'.pipes.values.countP (·.route?.any (·.outgoing = .noc1)) = 3 ∧
      e'.pipes.values.countP (·.routing.any (·.direct)) = 1 ∧
      e'.pipes.values.countP (·.isRebalanced) = 2 ∧ e'.rebalancedOps.length = 1 := by
  have hk : gathersAndBroadcast.WellKeyed := by decide
  have hn : ∀ p ∈ gathersAndBroadcast.pipes.values, p.routing = none := by decide
  have hstats : (gathersAndBroadcast.routePipes {} (.constant (some .noc1))).1 =
      .ok ⟨3, 0, 0, ⟨3, 0⟩, ⟨0, 3⟩, 1, 0, 2, ⟨1, 2⟩⟩ := by decide
  obtain ⟨e', h⟩ : ∃ e', gathersAndBroadcast.routePipes {} (.constant (some .noc1)) =
      (.ok ⟨3, 0, 0, ⟨3, 0⟩, ⟨0, 3⟩, 1, 0, 2, ⟨1, 2⟩⟩, e') := ⟨_, Prod.ext hstats rfl⟩
  obtain ⟨hdescribes, _⟩ := routeStats_describes hk hn h
  exact ⟨hk, hn, _, e', h, hdescribes, (hdescribes.outgoing .noc1).symm, hdescribes.direct.symm,
    hdescribes.flipped.symm, hdescribes.ops.symm⟩

end Epoch

end TorusRouting
