import TorusRouting.Proofs.Routing.Traffic

/-!
# The moves of a balancing run

Distinct recorded pipes belong to one input of one op, so the ops do not see each other's moves. All
moves of a balancing run can therefore be read off the epoch before it: for each op, the first
loopbacks in input order that may leave the busier network, as many as half the excess. Afterwards
an op has nothing left to move.
-/

namespace TorusRouting

variable {e e' : Epoch} {feeds : List Feed} {ids : List PipeId} {n : Network}

/-! ## Moving pipes -/

/-- The pipe with its outgoing leg on the other network. -/
def Pipe.moved (p : Pipe) : Pipe := { p with routing := p.routing.map Routing.moved }

/-- A pipe that has not been moved can be moved off the network it leaves on. -/
theorem Pipe.rebalance_other {p : Pipe} {l : Route} (hl : p.route? = some l)
    (hfresh : ∀ r, p.routing = some r → r.rebalanced = false) :
    p.rebalance l.outgoing.other = .ok p.moved := by
  obtain ⟨r, hr, hroute⟩ := Option.bind_eq_some_iff.1 hl
  refine Pipe.rebalance_eq_ok.2 ⟨r, l, hr, hfresh r hr, hroute, ?_⟩
  rw [moved, hr, Option.map_some, Routing.moved, hroute, Option.map_some]

/-- A pipe that is moved for the first time changes. -/
theorem Pipe.moved_ne {p : Pipe} {l : Route} (hl : p.route? = some l)
    (hfresh : ∀ r, p.routing = some r → r.rebalanced = false) : p.moved ≠ p := by
  obtain ⟨r, hr, _⟩ := Option.bind_eq_some_iff.1 hl
  intro heq
  have hmarked := hfresh r.moved (by rw [← heq, moved, hr]; rfl)
  cases hmarked

/-- A moved pipe leaves on the other network. -/
theorem Pipe.route?_moved (p : Option Pipe) : (p.map moved).bind (·.route?) =
    (p.bind (·.route?)).map fun l => { l with outgoing := l.outgoing.other } := by
  cases p with
  | none => rfl
  | some p =>
    obtain ⟨_, _, _, _, routing⟩ := p
    cases routing <;> rfl

namespace Epoch

/-- The epoch with the listed pipes moved, one after the other. -/
def move (e : Epoch) (ids : List PipeId) : Epoch :=
  ids.foldl (fun e id => { e with pipes := e.pipes.modify id Pipe.moved }) e

private theorem move_append (e : Epoch) (ids ids' : List PipeId) :
    e.move (ids ++ ids') = (e.move ids).move ids' := List.foldl_append

/-- Writing the moved pipe over a stored one moves it. -/
theorem setPipe_eq_move {id : PipeId} {p : Pipe} (hp : e.pipes.get? id = some p) :
    e.setPipe id p.moved = e.move [id] := by
  have hmodify : (e.pipes.modify id fun _ => p.moved) = e.pipes.modify id Pipe.moved := by
    apply Table.ext
    refine List.map_congr_left fun x hx => ?_
    split
    · rename_i heq
      have hget : e.pipes.get? id = some x.2 := Table.get?_eq_some_iff.2 (heq ▸ hx)
      cases hp.symm.trans hget
      rfl
    · rfl
  rw [setPipe, hmodify]
  rfl

/-- Exactly the listed pipes are moved. -/
theorem get?_move (hn : ids.Nodup) (id : PipeId) : (e.move ids).pipes.get? id =
    if id ∈ ids then (e.pipes.get? id).map Pipe.moved else e.pipes.get? id := by
  induction ids generalizing e with
  | nil => rfl
  | cons j ids ih =>
    rw [List.nodup_cons] at hn
    change ((({ e with pipes := e.pipes.modify j Pipe.moved } : Epoch).move ids).pipes.get? id) = _
    rw [ih hn.2, Table.get?_modify]
    by_cases hj : j = id
    · subst hj
      rw [if_neg hn.1, if_pos rfl, if_pos (List.mem_cons_self ..)]
    · have hmem : id ∈ j :: ids ↔ id ∈ ids := List.mem_cons.trans (or_iff_right (Ne.symm hj))
      rw [if_neg hj]
      simp only [hmem]

/-! ## The moves of one op -/

/-- May the feed be moved off the network? -/
def movable (e : Epoch) (n : Network) (f : Feed) : Bool :=
  (e.route? f.pipe).any (·.outgoing = n) && f.switchable

/-- The network with more load from the listed feeds. -/
def busier (e : Epoch) (feeds : List Feed) : Network := if e.pull feeds < 0 then .noc1 else .noc0

/-- The feeds that balancing moves: up to half the excess, off the busier network. -/
def flips (e : Epoch) (feeds : List Feed) : List Feed :=
  (feeds.filter (e.movable (e.busier feeds))).take ((e.pull feeds).natAbs / 2)

/-- Feeds are flipped in the order in which they stand. -/
theorem flips_sublist (e : Epoch) (feeds : List Feed) : (e.flips feeds).Sublist feeds :=
  (List.take_sublist ..).trans List.filter_sublist

/-- A feed that is flipped may be moved off the busier network. -/
theorem movable_of_mem_flips {f : Feed} (hf : f ∈ e.flips feeds) :
    e.movable (e.busier feeds) f = true :=
  (List.mem_filter.1 (List.mem_of_mem_take hf)).2

/-- What is moved depends on the routes of the feeds alone. -/
theorem flips_congr (h : ∀ f ∈ feeds, e'.route? f.pipe = e.route? f.pipe) :
    e'.flips feeds = e.flips feeds := by
  have hbusier : e'.busier feeds = e.busier feeds := by rw [busier, busier, pull_congr h]
  have hfilter : feeds.filter (e'.movable (e.busier feeds)) =
      feeds.filter (e.movable (e.busier feeds)) :=
    List.filter_congr fun f hf => by rw [movable, movable, h f hf]
  rw [flips, flips, hbusier, hfilter, pull_congr h]

/-- The loopbacks on a network that may be moved are those that are counted as switchable. -/
theorem switching_eq (hs : ∀ f ∈ feeds, f.switchable = true → f.loopback = true) (n : Network) :
    e.switching feeds n = (feeds.filter (e.movable n)).length := by
  rw [switching, ← List.countP_eq_length_filter]
  refine List.countP_congr fun f hf => ?_
  have hloopback := hs f hf
  rw [movable]
  cases e.route? f.pipe with
  | none => simp
  | some l => cases hswitch : f.switchable <;> simp_all

/-- The excess of an op is decided by the pull of its feeds and the loopbacks that may be moved. -/
theorem excess_eq (hs : ∀ f ∈ feeds, f.switchable = true → f.loopback = true) :
    e.excess feeds =
      if e.flips feeds = [] then none else some (e.busier feeds, (e.pull feeds).natAbs / 2) := by
  have hnil : e.flips feeds = [] ↔ (e.pull feeds).natAbs ≤ 1 ∨
      e.switching feeds (e.busier feeds) = 0 := by
    rw [flips, List.take_eq_nil_iff, switching_eq hs, List.length_eq_zero_iff]
    exact or_congr_left (by omega)
  rw [excess]
  by_cases hsign : e.pull feeds < 0
  · have hbusier : e.busier feeds = .noc1 := if_pos hsign
    have hhalf : (-e.pull feeds / 2).toNat = (e.pull feeds).natAbs / 2 := by omega
    have hover : 1 < -e.pull feeds ∧ 0 < e.switching feeds .noc1 ↔ ¬ e.flips feeds = [] := by
      rw [hnil, hbusier]
      omega
    rw [if_neg (by omega), if_congr hover rfl rfl, ite_not, hhalf, hbusier]
  · have hbusier : e.busier feeds = .noc0 := if_neg hsign
    have hhalf : (e.pull feeds / 2).toNat = (e.pull feeds).natAbs / 2 := by omega
    have hover : 1 < e.pull feeds ∧ 0 < e.switching feeds .noc0 ↔ ¬ e.flips feeds = [] := by
      rw [hnil, hbusier]
      omega
    have hnone : ¬ (1 < -e.pull feeds ∧ 0 < e.switching feeds .noc1) := by omega
    rw [if_congr hover rfl (if_neg hnone), ite_not, hhalf, hbusier]

end Epoch

namespace Balancer

open Epoch

/-- Distinct movable feeds are moved as long as the count lasts, and in order. -/
theorem flip_eq (off : Network) (count : Nat) (hn : (feeds.map (·.pipe)).Nodup)
    (h : e.Movable (feeds.map (·.pipe))) :
    flip off count feeds e =
      let moved := (feeds.filter fun f => (e.route? f.pipe).any (·.outgoing = off)).take count
      (.ok moved.length, e.move (moved.map (·.pipe))) := by
  induction feeds generalizing count e with
  | nil => cases count <;> rfl
  | cons f feeds ih =>
    cases count with
    | zero => rfl
    | succ count =>
      rw [List.map_cons, List.nodup_cons] at hn
      obtain ⟨p, hp, hfresh⟩ := h f.pipe (List.mem_cons_self ..)
      have hrest := h.mono (List.subset_cons_self ..)
      have hroute : e.route? f.pipe = p.route? := by
        rw [route?, hp]
        rfl
      rw [flip, pipe_eq_ok.2 hp]
      dsimp only
      split
      · rename_i hoff
        obtain ⟨l, hl, rfl⟩ := Option.map_eq_some_iff.1 hoff
        have hother (id : PipeId) (hid : id ∈ feeds.map (·.pipe)) :
            (e.move [f.pipe]).pipes.get? id = e.pipes.get? id := by
          have hne : id ∉ [f.pipe] := fun hm => hn.1 (List.mem_singleton.1 hm ▸ hid)
          rw [get?_move (List.nodup_singleton _), if_neg hne]
        have hfilter : (feeds.filter fun g =>
              ((e.move [f.pipe]).route? g.pipe).any (·.outgoing = l.outgoing)) =
            feeds.filter fun g => (e.route? g.pipe).any (·.outgoing = l.outgoing) := by
          refine List.filter_congr fun g hg => ?_
          rw [route?, hother _ (List.mem_map.2 ⟨g, hg, rfl⟩), route?]
        rw [Pipe.rebalance_other hl hfresh]
        dsimp only
        rw [setPipe_eq_move hp, ih count hn.2 (hrest.congr hother), hfilter,
          List.filter_cons_of_pos (by simp [hroute, hl]), List.take_succ_cons, List.map_cons]
        rfl
      · rename_i hoff
        rw [ih (count + 1) hn.2 hrest, List.filter_cons_of_neg]
        rw [hroute]
        cases hl : p.route? with
        | none => simp
        | some l =>
          rw [hl] at hoff
          simpa using hoff

/-- Up to half the excess of an op is moved, in the order of its feeds. -/
theorem flip_flips (hn : (feeds.map (·.pipe)).Nodup) (h : e.Movable (feeds.map (·.pipe))) :
    flip (e.busier feeds) ((e.pull feeds).natAbs / 2) (feeds.filter (·.switchable)) e =
      (.ok (e.flips feeds).length, e.move ((e.flips feeds).map (·.pipe))) := by
  have hsub : ((feeds.filter (·.switchable)).map (·.pipe)).Sublist (feeds.map (·.pipe)) :=
    List.filter_sublist.map _
  rw [flip_eq _ _ (hn.sublist hsub) (h.mono hsub.subset), List.filter_filter]
  rfl

/-- Balancing moves the flips of all ops, as they stand before the first move: the feeds of other
ops are for other pipes. -/
theorem balanceOps_eq {ops : List (List Feed)} (s : LoopbackStats)
    (hn : (ops.flatten.map (·.pipe)).Nodup) (h : e.Movable (ops.flatten.map (·.pipe)))
    (hs : ∀ f ∈ ops.flatten, f.switchable = true → f.loopback = true)
    (hfits : ∀ feeds ∈ ops, e.LoadFits feeds) :
    balanceOps ops s e =
      (.ok ⟨s.opsRebalanced + ops.countP (e.flips · ≠ []),
        s.pipesFlipped + (ops.flatMap e.flips).length⟩,
        e.move ((ops.flatMap e.flips).map (·.pipe))) := by
  induction ops generalizing s e with
  | nil => rfl
  | cons feeds ops ih =>
    rw [List.flatten_cons, List.map_append] at hn h
    rw [List.flatten_cons] at hs
    rw [List.forall_mem_cons] at hfits
    rw [List.nodup_append] at hn
    obtain ⟨hhere, hthere, hdisjoint⟩ := hn
    have hload := h.mono (List.subset_append_left ..)
    have hs₁ := fun f hf => hs f (List.mem_append_left _ hf)
    have hs₂ := fun f hf => hs f (List.mem_append_right _ hf)
    have hsub := (e.flips_sublist feeds).map (·.pipe)
    have hother (id : PipeId) (hid : id ∈ ops.flatten.map (·.pipe)) :
        (e.move ((e.flips feeds).map (·.pipe))).pipes.get? id = e.pipes.get? id := by
      rw [get?_move (hhere.sublist hsub), if_neg]
      exact fun hm => hdisjoint id (hsub.subset hm) id hid rfl
    have hflips (fs : List Feed) (hfs : fs ∈ ops) :
        (e.move ((e.flips feeds).map (·.pipe))).flips fs = e.flips fs :=
      flips_congr (route?_of_kept hother hfs)
    have hfits₂ (fs : List Feed) (hfs : fs ∈ ops) :
        (e.move ((e.flips feeds).map (·.pipe))).LoadFits fs :=
      (loadFits_congr (route?_of_kept hother hfs)).2 (hfits.2 fs hfs)
    rw [balanceOps, loadOf_excess hload.stored hfits.1, excess_eq hs₁]
    by_cases hnil : e.flips feeds = []
    · rw [if_pos hnil]
      dsimp only
      rw [ih s hthere (h.mono (List.subset_append_right ..)) hs₂ hfits.2, List.flatMap_cons, hnil,
        List.countP_cons_of_neg (by simpa using hnil), List.nil_append]
    · rw [if_neg hnil]
      dsimp only
      rw [flip_flips hhere hload]
      dsimp only
      rw [ih _ hthere ((h.mono (List.subset_append_right ..)).congr hother) hs₂ hfits₂,
        List.flatMap_congr hflips, List.countP_congr fun fs hfs => by rw [hflips fs hfs],
        List.flatMap_cons, List.map_append, move_append, List.length_append,
        List.countP_cons_of_pos (by simpa using hnil)]
      simp only [Nat.add_assoc, Nat.add_comm 1]

/-- Ops with nothing to move are left as they are. -/
theorem balanceOps_idle {ops : List (List Feed)} (s : LoopbackStats)
    (hstored : ∀ feeds ∈ ops, e.Stored (feeds.map (·.pipe)))
    (hs : ∀ feeds ∈ ops, ∀ f ∈ feeds, f.switchable = true → f.loopback = true)
    (hfits : ∀ feeds ∈ ops, e.LoadFits feeds) (hnil : ∀ feeds ∈ ops, e.flips feeds = []) :
    balanceOps ops s e = (.ok s, e) := by
  induction ops with
  | nil => rfl
  | cons feeds ops ih =>
    rw [List.forall_mem_cons] at hstored hs hfits hnil
    rw [balanceOps, loadOf_excess hstored.1 hfits.1, excess_eq hs.1, if_pos hnil.1]
    exact ih hstored.2 hs.2 hfits.2 hnil.2

/-! ## One op after balancing -/

/-- The feeds of several ops are flipped in the order in which they stand. -/
theorem flips_flatMap_sublist (e : Epoch) (ops : List (List Feed)) :
    (ops.flatMap e.flips).Sublist ops.flatten := by
  induction ops with
  | nil => exact .slnil
  | cons feeds ops ih =>
    rw [List.flatMap_cons, List.flatten_cons]
    exact (e.flips_sublist feeds).append ih

/-- The pipe of a feed is among those moved for all ops if it is moved for its own. -/
theorem mem_flips_iff {ops : List (List Feed)} (hn : (ops.flatten.map (·.pipe)).Nodup)
    (hfeeds : feeds ∈ ops) {f : Feed} (hf : f ∈ feeds) :
    f.pipe ∈ (ops.flatMap e.flips).map (·.pipe) ↔ f ∈ e.flips feeds := by
  constructor
  · intro hmem
    obtain ⟨g, hg, heq⟩ := List.mem_map.1 hmem
    obtain ⟨fs, hfs, hg⟩ := List.mem_flatMap.1 hg
    have hgfs := (e.flips_sublist fs).subset hg
    cases List.inj_on_of_nodup_map hn (List.mem_flatten.2 ⟨fs, hfs, hgfs⟩)
      (List.mem_flatten.2 ⟨feeds, hfeeds, hf⟩) heq
    have hdisjoint := (List.nodup_flatten.1 hn.of_map).2
    have : Std.Symm (@List.Disjoint Feed) := ⟨fun _ _ => List.Disjoint.symm⟩
    by_cases hsame : fs = feeds
    · exact hsame ▸ hg
    · exact absurd hf (hdisjoint.forall hfs hfeeds hsame hgfs)
  · intro hmem
    exact List.mem_map.2 ⟨f, List.mem_flatMap.2 ⟨feeds, hfeeds, hmem⟩, rfl⟩

end Balancer

namespace Epoch

open Balancer

/-- The pipes of an op are moved as its flips say. -/
def Levelled (feeds : List Feed) (e e' : Epoch) : Prop :=
  ∀ f ∈ feeds, e'.pipes.get? f.pipe =
    if f ∈ e.flips feeds then (e.pipes.get? f.pipe).map Pipe.moved else e.pipes.get? f.pipe

/-- Moving the flips of all ops levels each of them. -/
theorem levelled_move {ops : List (List Feed)} (hn : (ops.flatten.map (·.pipe)).Nodup)
    (hfeeds : feeds ∈ ops) : Levelled feeds e (e.move ((ops.flatMap e.flips).map (·.pipe))) := by
  intro f hf
  have hsub : ((ops.flatMap e.flips).map (·.pipe)).Sublist (ops.flatten.map (·.pipe)) :=
    (flips_flatMap_sublist e ops).map _
  rw [get?_move (hn.sublist hsub), if_congr (mem_flips_iff hn hfeeds hf) rfl rfl]

/-- The pull is towards the busier network. -/
theorem pull_eq_sign (e : Epoch) (feeds : List Feed) :
    e.pull feeds = (e.pull feeds).natAbs * (e.busier feeds).sign := by
  rw [busier]
  split <;> simp only [Network.sign] <;> omega

private theorem two_mul_length_flips_le (e : Epoch) (feeds : List Feed) :
    2 * (e.flips feeds).length ≤ (e.pull feeds).natAbs := by
  have hlength := List.length_take_le ((e.pull feeds).natAbs / 2)
    (feeds.filter (e.movable (e.busier feeds)))
  rw [flips]
  omega

/-- Every routed loopback leaves on one of the networks. -/
theorem looping_add (e : Epoch) (feeds : List Feed) :
    e.looping feeds .noc0 + e.looping feeds .noc1 =
      feeds.countP fun f => f.loopback && (e.route? f.pipe).isSome := by
  induction feeds with
  | nil => rfl
  | cons f feeds ih =>
    rw [List.countP_cons, ← ih]
    simp only [looping, List.countP_cons]
    cases e.route? f.pipe with
    | none => simp
    | some l =>
      obtain ⟨_, outgoing, _, _⟩ := l
      cases outgoing <;> cases f.loopback <;> simp <;> omega

namespace Levelled

/-- The feeds that are flipped have changed their network, and the others keep their routes. -/
theorem route? (h : Levelled feeds e e') {f : Feed} (hf : f ∈ feeds) :
    e'.route? f.pipe =
      if f ∈ e.flips feeds then
        (e.route? f.pipe).map fun l => { l with outgoing := l.outgoing.other }
      else e.route? f.pipe := by
  rw [Epoch.route?, h f hf]
  split
  · exact Pipe.route?_moved _
  · rfl

/-- The pipes of the feeds stay stored. -/
theorem stored (h : Levelled feeds e e') (hstored : e.Stored (feeds.map (·.pipe))) :
    e'.Stored (feeds.map (·.pipe)) := by
  refine List.forall_mem_map.2 fun f hf => ?_
  have hsome := List.forall_mem_map.1 hstored f hf
  rw [h f hf]
  split
  · rwa [Option.isSome_map]
  · exact hsome

/-- The same feeds come in on a network. -/
theorem entering_eq (h : Levelled feeds e e') (n : Network) :
    e'.entering feeds n = e.entering feeds n := by
  refine List.countP_congr fun f hf => ?_
  rw [h.route? hf]
  split <;> cases e.route? f.pipe <;> rfl

/-- The same number of loopbacks leaves on the two networks together. -/
theorem looping_add_eq (h : Levelled feeds e e') :
    e'.looping feeds .noc0 + e'.looping feeds .noc1 =
      e.looping feeds .noc0 + e.looping feeds .noc1 := by
  rw [looping_add, looping_add]
  refine List.countP_congr fun f hf => ?_
  rw [h.route? hf]
  split <;> cases e.route? f.pipe <;> rfl

/-- A levelled op changes exactly its flips. -/
theorem changed_iff (h : Levelled feeds e e') (hm : e.Movable (feeds.map (·.pipe))) {f : Feed}
    (hf : f ∈ feeds) : e'.pipes.get? f.pipe ≠ e.pipes.get? f.pipe ↔ f ∈ e.flips feeds := by
  rw [h f hf]
  split
  · rename_i hmem
    obtain ⟨p, hp, hfresh⟩ := hm f.pipe (List.mem_map.2 ⟨f, hf, rfl⟩)
    have hmovable := Bool.and_eq_true_iff.1 (movable_of_mem_flips hmem)
    obtain ⟨l, hl, _⟩ := (Option.any_eq_true ..).1 hmovable.1
    rw [Epoch.route?, hp] at hl
    rw [hp]
    exact iff_of_true (fun heq => Pipe.moved_ne hl hfresh (Option.some.inj heq)) hmem
  · rename_i hmem
    exact iff_of_false (fun hne => hne rfl) hmem

variable (h : Levelled feeds e e') (hn : (feeds.map (·.pipe)).Nodup)
  (hm : e.Movable (feeds.map (·.pipe)))
  (hs : ∀ f ∈ feeds, f.switchable = true → f.loopback = true)
include h hn hm hs

/-- Each move takes two off the difference. -/
theorem pull_eq : e'.pull feeds =
    ((e.pull feeds).natAbs - 2 * (e.flips feeds).length : Int) * (e.busier feeds).sign := by
  have hone : Levelled feeds e (e.move ((e.flips feeds).map (·.pipe))) := by
    have hn : ([feeds].flatten.map (·.pipe)).Nodup := by rwa [List.flatten_singleton]
    have hmove := levelled_move (e := e) hn (List.mem_singleton_self feeds)
    rwa [List.flatMap_singleton] at hmove
  have hpull := pull_flip (flip_flips hn hm) hn fun f hf =>
    ⟨(List.mem_filter.1 hf).1, hs f (List.mem_filter.1 hf).1 (List.mem_filter.1 hf).2⟩
  rw [pull_congr fun f hf => (h.route? hf).trans (hone.route? hf).symm, hpull, Int.sub_mul,
    ← pull_eq_sign]

/-- The difference gets no wider and keeps its sign. -/
theorem pull_bounds : (e'.pull feeds).natAbs ≤ (e.pull feeds).natAbs ∧
    (0 ≤ e.pull feeds → 0 ≤ e'.pull feeds) ∧ (e.pull feeds ≤ 0 → e'.pull feeds ≤ 0) := by
  have hle := e.two_mul_length_flips_le feeds
  have hsign := e.pull_eq_sign feeds
  rw [h.pull_eq hn hm hs]
  cases hb : e.busier feeds <;> rw [hb] at hsign <;> simp only [Network.sign] at hsign ⊢ <;> omega

/-- A narrower difference of the same total load fits where the wider one does. -/
theorem loadFits (hfits : e.LoadFits feeds) : e'.LoadFits feeds := by
  have hnarrower := (h.pull_bounds hn hm hs).1
  have hlooping := h.looping_add_eq
  have hzero := hfits .noc0
  have hone := hfits .noc1
  rw [pull_eq_loadOn, pull_eq_loadOn] at hnarrower
  simp only [loadOn, h.entering_eq] at hnarrower hzero hone
  intro n
  rw [loadOn, h.entering_eq]
  cases n <;> omega

/-- The networks are even, or no loopback is left that may leave the busier one. -/
theorem settled :
    (e'.pull feeds).natAbs ≤ 1 ∨ feeds.filter (e'.movable (e.busier feeds)) = [] := by
  by_cases hall : (feeds.filter (e.movable (e.busier feeds))).length ≤ (e.pull feeds).natAbs / 2
  · right
    have hflips : e.flips feeds = feeds.filter (e.movable (e.busier feeds)) :=
      List.take_of_length_le hall
    refine List.filter_eq_nil_iff.2 fun f hf => ?_
    rw [movable, h.route? hf]
    split
    · rename_i hmem
      have hmovable := movable_of_mem_flips hmem
      rw [movable] at hmovable
      cases hl : e.route? f.pipe with
      | none => simp
      | some l =>
        rw [hl] at hmovable
        cases ho : l.outgoing <;> cases hb : e.busier feeds <;> simp_all [Network.other]
    · rename_i hmem
      rw [hflips, List.mem_filter] at hmem
      exact fun hmovable => hmem ⟨hf, hmovable⟩
  · left
    have hlength : (e.flips feeds).length = (e.pull feeds).natAbs / 2 := by
      rw [flips, List.length_take]
      omega
    rw [h.pull_eq hn hm hs, hlength]
    cases e.busier feeds <;> simp only [Network.sign] <;> omega

/-- Nothing is left to move in a balanced op. -/
theorem flips_eq_nil : e'.flips feeds = [] := by
  rw [flips, List.take_eq_nil_iff]
  by_cases hsmall : (e'.pull feeds).natAbs ≤ 1
  · left
    omega
  · right
    have hbusier : e'.busier feeds = e.busier feeds := by
      have hle := e.two_mul_length_flips_le feeds
      have hpull := h.pull_eq hn hm hs
      rw [busier]
      cases hb : e.busier feeds <;> rw [hb] at hpull <;> simp only [Network.sign] at hpull
      · exact if_neg (by omega)
      · exact if_pos (by omega)
    rw [hbusier]
    exact (h.settled hn hm hs).resolve_left hsmall

end Levelled

end Epoch

end TorusRouting
