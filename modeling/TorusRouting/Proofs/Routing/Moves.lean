import TorusRouting.Proofs.Routing.AllOrNothing
import TorusRouting.Proofs.Routing.Selection
import TorusRouting.Proofs.Routing.Tally

/-!
# Decisions and moves

Routing leaves in every pipe what was decided for it on the epoch before, except that balancing may
have moved the outgoing leg to the other network. A pipe moves at most once, and only a unicast
loopback into an op does. A direct multicast is no loopback, so it stays on the network the oracle
answered with.
-/

namespace TorusRouting

/-- The routing with its outgoing leg on the other network. -/
def Routing.moved (r : Routing) : Routing :=
  { r with
    route := r.route.map fun l => { l with outgoing := l.outgoing.other }
    rebalanced := true }

variable {e e' e'' : Epoch} {config : Config} {oracle : Oracle} {ds : List Decision}
  {ids : List PipeId}

namespace Epoch

/-! ## What balancing does to pipes -/

/-- Some of the listed pipes are moved, none of them for the second time, and nothing else is. -/
def Moves (ids : List PipeId) (e e' : Epoch) : Prop :=
  ∀ id, e'.pipes.get? id = e.pipes.get? id ∨
    id ∈ ids ∧ ∃ p r, e.pipes.get? id = some p ∧ p.routing = some r ∧ r.rebalanced = false ∧
      e'.pipes.get? id = some { p with routing := some r.moved }

namespace Moves

/-- Nothing is moved. -/
theorem refl (ids : List PipeId) (e : Epoch) : Moves ids e e := fun _ => Or.inl rfl

/-- Moves are made in two stretches. -/
theorem trans (h : Moves ids e e') (h' : Moves ids e' e'') : Moves ids e e'' := by
  intro id
  rcases h id with hsame | ⟨hid, p, r, hp, hr, hfresh, hmoved⟩
  · rw [← hsame]
    exact h' id
  · right
    refine ⟨hid, p, r, hp, hr, hfresh, ?_⟩
    rcases h' id with hsame | ⟨_, p', r', hp', hr', hfresh', _⟩
    · rw [hsame, hmoved]
    · cases hmoved.symm.trans hp'
      cases hr'
      cases hfresh'

/-- Moves among some pipes are moves among more. -/
theorem mono {ids' : List PipeId} (h : Moves ids e e') (hs : ids ⊆ ids') : Moves ids' e e' := by
  intro id
  rcases h id with hsame | ⟨hid, hmoved⟩
  · exact Or.inl hsame
  · exact Or.inr ⟨hs hid, hmoved⟩

/-- A pipe that is not listed stays as it is. -/
theorem get?_of_notMem (h : Moves ids e e') {id : PipeId} (hid : id ∉ ids) :
    e'.pipes.get? id = e.pipes.get? id :=
  (h id).resolve_right fun hmoved => hid hmoved.1

end Moves

/-- A pipe is replaced under its own id only. -/
theorem get?_setPipe {id : PipeId} {p : Pipe} (hp : e.pipes.get? id = some p) (p' : Pipe)
    (j : PipeId) : (e.setPipe id p').pipes.get? j = if id = j then some p' else e.pipes.get? j := by
  simp only [setPipe, Table.get?_modify]
  split
  · rename_i hj
    rw [← hj, hp, Option.map_some]
  · rfl

/-- Moving a pipe off the network it leaves on. -/
theorem setPipe_moves {id : PipeId} {p p' : Pipe} {off : Network} (hp : e.pipes.get? id = some p)
    (hoff : p.route?.map (·.outgoing) = some off) (h : p.rebalance off.other = .ok p') :
    Moves [id] e (e.setPipe id p') := by
  obtain ⟨r, l, hr, hfresh, hl, rfl⟩ := Pipe.rebalance_eq_ok.1 h
  have hout : l.outgoing = off := by simpa [Pipe.route?, hr, hl] using hoff
  intro j
  rw [get?_setPipe hp]
  by_cases hj : id = j
  · subst hj
    refine Or.inr ⟨List.mem_cons_self .., p, r, hp, hr, hfresh, ?_⟩
    rw [if_pos rfl, Routing.moved, hl, ← hout]
    rfl
  · exact Or.inl (if_neg hj)

end Epoch

namespace Balancer

open Epoch

/-- Whatever the outcome, only the listed feeds are moved. -/
theorem flip_moves (off : Network) (count : Nat) (feeds : List Feed) (e : Epoch) :
    Moves (feeds.map (·.pipe)) e (flip off count feeds e).2 := by
  induction feeds generalizing count e with
  | nil => cases count <;> exact .refl _ e
  | cons f feeds ih =>
    cases count with
    | zero => exact .refl _ e
    | succ count =>
      have hrest : feeds.map (·.pipe) ⊆ (f :: feeds).map (·.pipe) := List.subset_cons_self ..
      rw [flip]
      split
      · exact .refl _ e
      · rename_i p hp
        split
        · rename_i hoff
          split
          · exact .refl _ e
          · rename_i p' hp'
            have hfirst : Moves [f.pipe] e (e.setPipe f.pipe p') :=
              setPipe_moves (pipe_eq_ok.1 hp) hoff hp'
            exact (hfirst.mono (by simp)).trans ((ih count _).mono hrest)
        · exact (ih (count + 1) e).mono hrest

/-- Whatever the outcome, only switchable feeds of the listed ops are moved. -/
theorem balanceOps_moves (ops : List (List Feed)) (s : LoopbackStats) (e : Epoch) :
    Moves ((ops.flatten.filter (·.switchable)).map (·.pipe)) e (balanceOps ops s e).2 := by
  induction ops generalizing s e with
  | nil => exact .refl _ e
  | cons feeds ops ih =>
    rw [List.flatten_cons, List.filter_append, List.map_append]
    have hrest (s : LoopbackStats) (e : Epoch) :=
      (ih s e).mono (List.subset_append_right ((feeds.filter (·.switchable)).map (·.pipe)) _)
    rw [balanceOps]
    split
    · exact .refl _ e
    · exact hrest s e
    · rename_i off count _
      have hflip := (flip_moves off count (feeds.filter (·.switchable)) e).mono
        (List.subset_append_left _ ((ops.flatten.filter (·.switchable)).map (·.pipe)))
      split
      · rename_i h
        rwa [h] at hflip
      · rename_i h
        rw [h] at hflip
        exact hflip.trans (hrest _ _)

end Balancer

namespace Epoch

/-! ## From the decisions to the routed epoch -/

/-- Routing that succeeds has made, written and balanced decisions. -/
theorem routePipes_eq_ok {stats : RouteStats} (h : e.routePipes config oracle = (.ok stats, e')) :
    ∃ ds e₁ lb, e.decisions config oracle = .ok ds ∧ assignAll ds e = (.ok (), e₁) ∧
      (tally ds).balance e₁ = (.ok lb, e') := by
  rw [routePipes] at h
  split at h
  · cases h
  · rw [routeValid] at h
    split at h
    · cases h
    · rename_i ds hd
      split at h
      · cases h
      · rename_i e₁ hassign
        split at h
        · cases h
        · rename_i lb e₂ hbalance
          cases h
          exact ⟨ds, e₁, lb, hd, hassign, hbalance⟩

/-- There is one decision for each pipe. -/
theorem decisions_nodup (hk : e.WellKeyed) (hd : e.decisions config oracle = .ok ds) :
    (ds.map (·.pipe)).Nodup := by
  rw [decisions_pipe hd]
  exact hk.pipes.nodup

/-- Decisions are written each into the pipe that it was made for. -/
theorem assignAll_written (hk : e.WellKeyed) (hn : ∀ p ∈ e.pipes.values, p.routing = none)
    (hd : e.decisions config oracle = .ok ds) (ha : assignAll ds e = (.ok (), e')) {p : Pipe}
    (hp : p ∈ e.pipes.values) :
    ∃ d ∈ ds, e.decidePipe config oracle p = .ok d ∧
      e'.pipes.get? p.id = some (p.written d) := by
  have hv : e.pipes.values = [] ++ (e.pipes.values ++ []) := (List.append_nil _).symm
  obtain ⟨e₁, heq, hroute, hvalues⟩ := assignAll_unrouted hk hv (decisions_pipe hd) hn []
  rw [List.append_nil] at heq
  cases ha.symm.trans heq
  rw [List.append_nil, List.nil_append] at hvalues
  obtain ⟨d, hmem, hdecide, hwritten⟩ :=
    exists_zipWith_of_forall₂ Pipe.written (mapM_eq_ok.1 hd) hp
  rw [← hvalues] at hwritten
  exact ⟨d, hmem, hdecide, (hroute.wellKeyed hk).pipes.get?_key hwritten⟩

/-- Every feed of the tally is that of a decision for the op it is listed under. -/
theorem exists_decision_of_feed {op : String} {l : List (UInt64 × Feed)} {feed : Feed}
    (hl : (op, l) ∈ (tally ds).ops.toList) (hf : feed ∈ l.map (·.2)) :
    ∃ d ∈ ds, d.Feeds op ∧ feed = d.feed := by
  obtain ⟨x, hx, rfl⟩ := List.mem_map.1 hf
  have hentries : (tally ds).entries op = l := by
    rw [Balancer.entries, Table.get?_eq_some_iff.2 hl]
    rfl
  rw [← hentries] at hx
  obtain ⟨d, hd, rfl⟩ := List.mem_map.1 ((entries_perm ds op).subset hx)
  obtain ⟨hd, hfeeds⟩ := List.mem_filter.1 hd
  exact ⟨d, (tallied_sublist ds).subset hd, of_decide_eq_true hfeeds, rfl⟩

/-- Balancing the tally keeps what was decided for a pipe, or moves a unicast loopback into an op.
Each pipe was decided once, so the feed that is moved is that of the decision. -/
theorem balance_tally_moves {p : Pipe} {d : Decision} (hn : (ds.map (·.pipe)).Nodup) (hd : d ∈ ds)
    (hid : d.pipe = p.id) {lb : Outcome LoopbackStats} (hb : (tally ds).balance e = (lb, e'))
    (hp : e.pipes.get? p.id = some (p.written d)) :
    e'.pipes.get? p.id = some (p.written d) ∨
      e'.pipes.get? p.id = some { p with routing := some d.routing.moved } ∧
        (∃ op, d.Feeds op) ∧ d.feed.switchable = true := by
  have hmoves := Balancer.balanceOps_moves ((tally ds).ops.values.map (·.map (·.2))) {} e
  rw [← Balancer.balance, hb] at hmoves
  rcases hmoves p.id with hsame | ⟨hmem, p', r, hp', hr, _, hmoved⟩
  · exact Or.inl (hsame.trans hp)
  · cases hp.symm.trans hp'
    cases hr
    obtain ⟨feed, hfeed, heq⟩ := List.mem_map.1 hmem
    obtain ⟨hfeed, hswitch⟩ := List.mem_filter.1 hfeed
    obtain ⟨feeds, hfeeds, hfeed⟩ := List.mem_flatten.1 hfeed
    obtain ⟨l, hl, rfl⟩ := List.mem_map.1 hfeeds
    obtain ⟨op, hl⟩ := Table.mem_values.1 hl
    obtain ⟨d', hd', hfeeds, rfl⟩ := exists_decision_of_feed hl hfeed
    cases List.inj_on_of_nodup_map hn hd' hd (heq.trans hid.symm)
    exact Or.inr ⟨hmoved, ⟨op, hfeeds⟩, hswitch⟩

/-! ## What routing writes -/

/-- The oracle answers with a network when asked about the ops at the ends of the pipe. -/
def Answers (e : Epoch) (oracle : Oracle) (p : Pipe) (n : Network) : Prop :=
  ∃ src dst owner producer key input consumer, e.Ends p src dst ∧ src.owner = some owner ∧
    e.ops.get? owner.op = some producer ∧ dst.owner = some (.consumer key input) ∧
    e.ops.get? key = some consumer ∧
    oracle e.device producer consumer (asks p consumer input) = .ok (some n)

/-- A direct multicast is selected the network that the oracle answers with. -/
theorem select_answers {p : Pipe} {c : PipeClass} {r : Routing} (hc : e.classify oracle p = .ok c)
    (hs : e.select config p c = .ok r) (h : r.direct = true) :
    ∃ l, r.route = some l ∧ e.Answers oracle p l.outgoing := by
  obtain ⟨src, dst, hends, _, hcls⟩ := classifies_of_classify hc
  rw [(select_eq_ok hs).1] at h
  obtain ⟨heth, hop⟩ := hcls.of_direct h
  obtain ⟨l, hl, hfollows⟩ := select_follows hs heth
  obtain ⟨_, consumer, input, hdelivers⟩ := hcls.delivers heth hop
  obtain ⟨key, howner', hconsumer⟩ := consumerOf_eq_ok.1 hdelivers.receiver
  obtain ⟨_, owner, producer, howner, hproducer, hanswer⟩ := hdelivers.direct h
  refine ⟨l, hl, src, dst, owner, producer, key, input, consumer, hends, howner, hproducer,
    howner', hconsumer, ?_⟩
  rw [(hfollows.intoOp hop).1]
  exact hanswer

/-- A decision that may be moved is for a unicast loopback into an op. -/
theorem decidePipe_switchable {p : Pipe} {d : Decision} {op : String}
    (h : e.decidePipe config oracle p = .ok d) (hfeeds : d.Feeds op)
    (hswitch : d.feed.switchable = true) :
    d.routing.direct = false ∧ d.cls.dest = .op ∧ d.cls.ethernet = false ∧
      d.cls.loopback = true ∧ d.cls.multicast = false ∧ p.isMulticast = false := by
  obtain ⟨hc, hs, _⟩ := decidePipe_eq_ok h
  obtain ⟨_, _, _, _, hcls⟩ := classifies_of_classify hc
  obtain ⟨heth, hop⟩ := hcls.of_destOp (Decision.feeds_iff.1 hfeeds).1
  obtain ⟨_, _, _, hdelivers⟩ := hcls.delivers heth hop
  have hunicast : d.cls.loopback = true ∧ d.cls.multicast = false := by
    simpa [Decision.feed] using hswitch
  refine ⟨?_, hop, heth, hunicast.1, hunicast.2, ?_⟩
  · rw [(select_eq_ok hs).1, Bool.eq_false_iff]
    intro hdirect
    cases hunicast.1.symm.trans (hdelivers.direct hdirect).1
  · rw [← hdelivers.multicast]
    exact hunicast.2

/-- Routing an epoch without routings leaves in every pipe the routing that is selected for its
class on that epoch, or the same routing with the outgoing leg moved once to the other network. Only
a unicast loopback into an op is moved, so a direct multicast leaves on the network that the oracle
answered with. -/
theorem routePipes_writes_decisions (hk : e.WellKeyed)
    (hn : ∀ p ∈ e.pipes.values, p.routing = none) {stats : RouteStats}
    (h : e.routePipes config oracle = (.ok stats, e')) :
    e.Rerouted e' ∧ ∀ p ∈ e.pipes.values, ∃ c r r', e.classify oracle p = .ok c ∧
      e.select config p c = .ok r ∧ e'.pipes.get? p.id = some { p with routing := some r' } ∧
      (r' = r ∨ r' = r.moved ∧ r.route.isSome ∧ r.rebalanced = false ∧ c.destOp.isSome ∧
        r.direct = false ∧ c.dest = .op ∧ c.ethernet = false ∧ c.loopback = true ∧
        c.multicast = false ∧ p.isMulticast = false) ∧
      (r'.direct = true → ∃ l, r'.route = some l ∧ e.Answers oracle p l.outgoing) := by
  obtain ⟨ds, e₁, lb, hd, hassign, hbalance⟩ := routePipes_eq_ok h
  constructor
  · have hroute := routePipes_rerouted e config oracle
    rwa [h] at hroute
  · intro p hp
    obtain ⟨d, hmem, hdecide, hwritten⟩ := assignAll_written hk hn hd hassign hp
    obtain ⟨hc, hs, hid⟩ := decidePipe_eq_ok hdecide
    rcases balance_tally_moves (decisions_nodup hk hd) hmem hid hbalance hwritten with
      hsame | ⟨hmoved, ⟨op, hfeeds⟩, hswitch⟩
    · exact ⟨d.cls, d.routing, d.routing, hc, hs, hsame, Or.inl rfl, select_answers hc hs⟩
    · have hclass := decidePipe_switchable hdecide hfeeds hswitch
      obtain ⟨hdest, hroute⟩ := Decision.feeds_iff.1 hfeeds
      refine ⟨d.cls, d.routing, d.routing.moved, hc, hs, hmoved, Or.inr ⟨rfl, hroute,
        select_rebalanced hs, Option.isSome_iff_exists.2 ⟨op, hdest⟩, hclass⟩, ?_⟩
      intro hdirect
      cases hclass.1.symm.trans hdirect

/-- A row broadcast from op to op, and two gathers from relay buffers into another op. -/
def gathersAndBroadcast : Epoch where
  index := 0
  device := { gridX := 8, gridY := 10, ethernet := [], l1Bytes := 1024, reservedBytes := 0 }
  ops := .ofList [
    ("prod", ⟨"prod", 0, 1, 2, 1, 1, false, false, []⟩),
    ("cons", ⟨"cons", 0, 2, 2, 2, 1, false, false, [{ row := true }]⟩),
    ("sum", ⟨"sum", 0, 2, 0, 1, 1, false, false, [{}, {}, {}]⟩)]
  buffers := .ofList [
    (⟨1⟩, ⟨⟨1⟩, .opOutput, ⟨0, 1, 2⟩, none, some (.producer "prod"), 16, 1, 8, 2⟩),
    (⟨2⟩, ⟨⟨2⟩, .opInput, ⟨0, 2, 2⟩, none, some (.consumer "cons" 0), 16, 1, 8, 2⟩),
    (⟨3⟩, ⟨⟨3⟩, .opInput, ⟨0, 3, 2⟩, none, some (.consumer "cons" 0), 16, 1, 8, 2⟩),
    (⟨4⟩, ⟨⟨4⟩, .relay, ⟨0, 0, 0⟩, none, none, 16, 2, 8, 2⟩),
    (⟨5⟩, ⟨⟨5⟩, .relay, ⟨0, 1, 0⟩, none, none, 16, 2, 8, 2⟩),
    (⟨6⟩, ⟨⟨6⟩, .opInput, ⟨0, 2, 0⟩, none, some (.consumer "sum" 0), 16, 2, 8, 2⟩),
    (⟨7⟩, ⟨⟨7⟩, .opInput, ⟨0, 2, 0⟩, none, some (.consumer "sum" 2), 16, 2, 8, 2⟩)]
  pipes := .ofList [
    (⟨10⟩, ⟨⟨10⟩, [⟨1⟩], [[⟨2⟩, ⟨3⟩]], [], none⟩),
    (⟨20⟩, ⟨⟨20⟩, [⟨4⟩, ⟨5⟩], [[⟨6⟩]], [], none⟩),
    (⟨30⟩, ⟨⟨30⟩, [⟨4⟩, ⟨5⟩], [[⟨7⟩]], [], none⟩)]

/-- Under an oracle that always answers `noc1`, the broadcast leaves on `noc1` and both gathers are
moved. -/
theorem routePipes_writes_decisions_gathersAndBroadcast :
    gathersAndBroadcast.WellKeyed ∧
    (∀ p ∈ gathersAndBroadcast.pipes.values, p.routing = none) ∧
    ∃ stats e', gathersAndBroadcast.routePipes {} (.constant (some .noc1)) = (.ok stats, e') ∧
      stats.outgoing = ⟨0, 3⟩ ∧ stats.direct = 1 ∧ stats.loopback = ⟨1, 2⟩ ∧
      ∀ p ∈ gathersAndBroadcast.pipes.values, ∃ c r r',
        gathersAndBroadcast.classify (.constant (some .noc1)) p = .ok c ∧
        gathersAndBroadcast.select {} p c = .ok r ∧
        e'.pipes.get? p.id = some { p with routing := some r' } ∧ (r' = r ∨ r' = r.moved) := by
  have hk : gathersAndBroadcast.WellKeyed := by decide
  have hn : ∀ p ∈ gathersAndBroadcast.pipes.values, p.routing = none := by decide
  have hstats : (gathersAndBroadcast.routePipes {} (.constant (some .noc1))).1 =
      .ok ⟨3, 0, 0, ⟨3, 0⟩, ⟨0, 3⟩, 1, 0, 2, ⟨1, 2⟩⟩ := by decide
  obtain ⟨e', h⟩ : ∃ e', gathersAndBroadcast.routePipes {} (.constant (some .noc1)) =
      (.ok ⟨3, 0, 0, ⟨3, 0⟩, ⟨0, 3⟩, 1, 0, 2, ⟨1, 2⟩⟩, e') := ⟨_, Prod.ext hstats rfl⟩
  refine ⟨hk, hn, _, e', h, rfl, rfl, rfl, fun p hp => ?_⟩
  obtain ⟨c, r, r', hc, hr, hget, hor, _⟩ := (routePipes_writes_decisions hk hn h).2 p hp
  exact ⟨c, r, r', hc, hr, hget, hor.imp_right And.left⟩

end Epoch

end TorusRouting
