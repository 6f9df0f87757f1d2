import TorusRouting.Proofs.Routing.Flips

/-!
# How far balancing evens the networks

The load of an op before a balancing run says how many of its loopbacks move, and off which network.
The load after it is even, or has no loopback left that may leave the busier network, and a second
run moves nothing. All this holds as long as the loads fit a word, as they do if no op has `2 ^ 31`
inputs; a load that does not fit is a fault.
-/

namespace TorusRouting

variable {e e' : Epoch} {feeds : List Feed}

/-- A list without repetitions holds a sublist where it holds its members. -/
theorem filter_mem_eq_of_sublist {α : Type} [DecidableEq α] {l l' : List α} (h : l.Sublist l')
    (hn : l'.Nodup) : l'.filter (· ∈ l) = l := by
  induction h with
  | slnil => rfl
  | cons a hsub ih =>
    rw [List.nodup_cons] at hn
    rw [List.filter_cons_of_neg (by simpa using fun ha => hn.1 (hsub.subset ha)), ih hn.2]
  | @cons_cons l l' a hsub ih =>
    rw [List.nodup_cons] at hn
    have hrest : l'.filter (· ∈ a :: l) = l'.filter (· ∈ l) := by
      refine List.filter_congr fun b hb => decide_eq_decide.2 ?_
      exact List.mem_cons.trans (or_iff_right fun heq => hn.1 (heq ▸ hb))
    rw [List.filter_cons_of_pos (by simp), hrest, ih hn.2]

/-! ## Loads before and after -/

namespace Load

variable {l l' : Load}

/-- The load of `noc0` minus the load of `noc1`, as exact numbers. -/
def difference (l : Load) : Int :=
  ((l.inputs.noc0.toNat + l.loopbacks.noc0.toNat : Nat) : Int) -
    (l.inputs.noc1.toNat + l.loopbacks.noc1.toNat : Nat)

/-- The network with more load. -/
def busier (l : Load) : Network := if l.difference < 0 then .noc1 else .noc0

/-- How many loopbacks are moved off the busier network. -/
def moves (l : Load) : Nat :=
  if l.difference.natAbs ≤ 1 then 0
  else min (l.difference.natAbs / 2) (l.switchable.get l.busier).toNat

/-- The second load is the first one with loopbacks moved towards an even load, as far as there are
any. -/
structure EvensTo (l l' : Load) : Prop where
  inputs : l'.inputs = l.inputs
  loopbacks : l'.loopbacks.noc0.toNat + l'.loopbacks.noc1.toNat =
    l.loopbacks.noc0.toNat + l.loopbacks.noc1.toNat
  shift : l'.difference = l.difference - 2 * l.moves * l.busier.sign
  narrower : l'.difference.natAbs ≤ l.difference.natAbs
  nonneg : 0 ≤ l.difference → 0 ≤ l'.difference
  nonpos : l.difference ≤ 0 → l'.difference ≤ 0
  settled : l'.difference.natAbs ≤ 1 ∨ l'.switchable.get l.busier = 0

namespace Shows

/-- The difference of the counters is the pull of the feeds. -/
theorem difference_eq (h : l.Shows e feeds) : l.difference = e.pull feeds := by
  have hload (n : Network) :
      (l.inputs.get n).toNat + (l.loopbacks.get n).toNat = e.loadOn feeds n := by
    rw [h.inputs, h.loopbacks]
    rfl
  rw [Epoch.pull_eq_loadOn, ← hload, ← hload]
  rfl

/-- The busier network of the counters is that of the feeds. -/
theorem busier_eq (h : l.Shows e feeds) : l.busier = e.busier feeds := by
  rw [busier, h.difference_eq, Epoch.busier]

/-- The counters tell how many feeds are moved. -/
theorem moves_eq (h : l.Shows e feeds)
    (hs : ∀ f ∈ feeds, f.switchable = true → f.loopback = true) :
    l.moves = (e.flips feeds).length := by
  rw [moves, h.busier_eq, h.difference_eq, h.switchable, Epoch.switching_eq hs, Epoch.flips,
    List.length_take]
  split <;> omega

end Shows

/-- Balancing evens the load of an op. -/
theorem evensTo_of_levelled (h : Epoch.Levelled feeds e e') (hn : (feeds.map (·.pipe)).Nodup)
    (hm : e.Movable (feeds.map (·.pipe)))
    (hs : ∀ f ∈ feeds, f.switchable = true → f.loopback = true)
    (hl : l.Shows e feeds) (hl' : l'.Shows e' feeds) : l.EvensTo l' := by
  have hinputs (n : Network) : l'.inputs.get n = l.inputs.get n := by
    rw [← UInt32.toNat_inj, hl'.inputs, hl.inputs, h.entering_eq]
  have hlooping : (l'.loopbacks.get .noc0).toNat + (l'.loopbacks.get .noc1).toNat =
      (l.loopbacks.get .noc0).toNat + (l.loopbacks.get .noc1).toNat := by
    rw [hl.loopbacks, hl.loopbacks, hl'.loopbacks, hl'.loopbacks, h.looping_add_eq]
  have hbounds := h.pull_bounds hn hm hs
  have hsettled := h.settled hn hm hs
  rw [← hl.difference_eq, ← hl'.difference_eq] at hbounds
  refine ⟨?_, hlooping, ?_, hbounds.1, hbounds.2.1, hbounds.2.2, ?_⟩
  · exact PerNetwork.mk.injEq .. ▸ ⟨hinputs .noc0, hinputs .noc1⟩
  · rw [hl'.difference_eq, h.pull_eq hn hm hs, Int.sub_mul, ← Epoch.pull_eq_sign,
      hl.difference_eq, hl.moves_eq hs, hl.busier_eq]
  · rw [hl'.difference_eq, ← UInt32.toNat_inj, hl'.switchable, hl.busier_eq,
      Epoch.switching_eq hs]
    exact hsettled.imp_right (congrArg List.length)

end Load

namespace Balancer

open Epoch

variable {t : Balancer}

/-! ## Recorded feeds -/

/-- The balancers that records build. -/
inductive Recorded : Balancer → Prop
  | empty : Recorded empty
  | record {t : Balancer} (h : Recorded t) (op : String) (input : UInt64) (pipe : PipeId)
      (loopback multicast : Bool) : Recorded (t.record op input pipe loopback multicast)

private theorem entries_record (t : Balancer) (op op' : String) (input : UInt64) (pipe : PipeId)
    (loopback multicast : Bool) :
    (t.record op input pipe loopback multicast).entries op' =
      if op = op' then
        Feed.put input ⟨pipe, loopback, loopback && !multicast⟩ (t.entries op)
      else t.entries op' := by
  simp only [entries, record, Table.get?_insert]
  split <;> rfl

/-- The feeds of an op are ascending in its inputs. -/
theorem Recorded.ascending (ht : t.Recorded) (op : String) :
    (t.entries op).Pairwise (·.1 < ·.1) := by
  induction ht with
  | empty => exact .nil
  | record _ op' input pipe loopback multicast ih =>
    rw [entries_record]
    split
    · rename_i heq
      exact Feed.put_pairwise _ _ (heq ▸ ih)
    · exact ih

/-- Every feed that may be moved is a loopback. -/
theorem Recorded.loopback_of_switchable (ht : t.Recorded) (op : String) :
    ∀ f ∈ t.feeds op, f.switchable = true → f.loopback = true := by
  have hentry : ∀ x ∈ t.entries op, x.2.switchable = true → x.2.loopback = true := by
    induction ht with
    | empty => exact List.forall_mem_nil _
    | record ht op' input pipe loopback multicast ih =>
      rw [entries_record]
      split
      · rename_i heq
        intro x hx
        rcases List.mem_cons.1 ((Feed.put_perm input _ (ht.ascending op')).subset hx) with rfl | hx
        · exact fun hswitch => (Bool.and_eq_true_iff.1 hswitch).1
        · exact ih x (heq ▸ (List.mem_filter.1 hx).1)
      · exact ih
  intro f hf
  obtain ⟨x, hx, rfl⟩ := List.mem_map.1 hf
  exact hentry x hx

/-! ## All ops -/

/-- The feeds of an op whose pipes differ between two epochs, in the order of the inputs. -/
def flipped (t : Balancer) (e e' : Epoch) (op : String) : List Feed :=
  (t.feeds op).filter fun f => e'.pipes.get? f.pipe ≠ e.pipes.get? f.pipe

/-- An op is balanced: its first loopbacks that may leave the busier network leave it, as many as
its load before says. -/
structure Settles (t : Balancer) (op : String) (e e' : Epoch) (l l' : Load) : Prop where
  before : t.load e op = .ok l
  after : t.load e' op = .ok l'
  imbalance : l.imbalance = .ok l.difference
  imbalance_after : l'.imbalance = .ok l'.difference
  flipped_eq : t.flipped e e' op = ((t.feeds op).filter (e.movable l.busier)).take l.moves
  count : (t.flipped e e' op).length = l.moves
  moved : ∀ f ∈ t.flipped e e' op, e'.pipes.get? f.pipe = (e.pipes.get? f.pipe).map Pipe.moved
  evens : l.EvensTo l'

/-- An op is balanced by its flips. Half the difference and the number of moves cut the same feeds
off. -/
theorem settles_of_levelled {op : String} (h : Levelled (t.feeds op) e e')
    (hn : ((t.feeds op).map (·.pipe)).Nodup) (hm : e.Movable ((t.feeds op).map (·.pipe)))
    (hs : ∀ f ∈ t.feeds op, f.switchable = true → f.loopback = true)
    (hfits : e.LoadFits (t.feeds op)) : ∃ l l', t.Settles op e e' l l' := by
  have hfits' := h.loadFits hn hm hs hfits
  obtain ⟨l, hl, hshows⟩ := exists_loadOf hm.stored hfits
  obtain ⟨l', hl', hshows'⟩ := exists_loadOf (h.stored hm.stored) hfits'
  have hflipped : t.flipped e e' op = e.flips (t.feeds op) := by
    rw [flipped, ← filter_mem_eq_of_sublist (e.flips_sublist (t.feeds op)) hn.of_map]
    exact List.filter_congr fun f hf => decide_eq_decide.2 (h.changed_iff hm hf)
  have hcount := hshows.moves_eq hs
  refine ⟨l, l',
    { before := hl
      after := hl'
      imbalance := ?_
      imbalance_after := ?_
      flipped_eq := ?_
      count := ?_
      moved := fun f hf => ?_
      evens := Load.evensTo_of_levelled h hn hm hs hshows hshows' }⟩
  · rw [hshows.imbalance_eq hfits, hshows.difference_eq]
  · rw [hshows'.imbalance_eq hfits', hshows'.difference_eq]
  · rw [hflipped, hshows.busier_eq, hcount, flips, List.length_take, List.take_eq_take_min]
  · rw [hflipped, hcount]
  · rw [hflipped] at hf
    rw [h f ((e.flips_sublist _).subset hf), if_pos hf]

section

variable {ops : List (List Feed)} (hn : (ops.flatten.map (·.pipe)).Nodup)
  (h : e.Movable (ops.flatten.map (·.pipe)))

include hn in
private theorem nodup_of_mem_ops (hfeeds : feeds ∈ ops) : (feeds.map (·.pipe)).Nodup :=
  hn.sublist ((List.sublist_flatten_of_mem hfeeds).map _)

include h in
private theorem movable_of_mem_ops (hfeeds : feeds ∈ ops) : e.Movable (feeds.map (·.pipe)) :=
  h.mono ((List.sublist_flatten_of_mem hfeeds).map _).subset

include hn h

/-- Once the flips of all ops are made, a second run has nothing to move. -/
theorem balanceOps_move (hs : ∀ feeds ∈ ops, ∀ f ∈ feeds, f.switchable = true → f.loopback = true)
    (hload : ∀ feeds ∈ ops, e.LoadFits feeds) :
    balanceOps ops {} (e.move ((ops.flatMap e.flips).map (·.pipe))) =
      (.ok {}, e.move ((ops.flatMap e.flips).map (·.pipe))) := by
  refine balanceOps_idle {} (fun feeds hfeeds => ?_) hs (fun feeds hfeeds => ?_)
    fun feeds hfeeds => ?_
  · exact (levelled_move hn hfeeds).stored (movable_of_mem_ops h hfeeds).stored
  · exact (levelled_move hn hfeeds).loadFits (nodup_of_mem_ops hn hfeeds)
      (movable_of_mem_ops h hfeeds) (hs feeds hfeeds) (hload feeds hfeeds)
  · exact (levelled_move hn hfeeds).flips_eq_nil (nodup_of_mem_ops hn hfeeds)
      (movable_of_mem_ops h hfeeds) (hs feeds hfeeds)

/-- The pipes that the flips of all ops change are those that they move. -/
theorem filter_changed_move :
    (ops.flatten.map (·.pipe)).filter (fun id =>
        (e.move ((ops.flatMap e.flips).map (·.pipe))).pipes.get? id ≠ e.pipes.get? id) =
      (ops.flatMap e.flips).map (·.pipe) := by
  have hsub := (flips_flatMap_sublist e ops).map (·.pipe)
  refine Eq.trans (List.filter_congr fun id hid => ?_) (filter_mem_eq_of_sublist hsub hn)
  obtain ⟨f, hf, rfl⟩ := List.mem_map.1 hid
  obtain ⟨feeds, hfeeds, hf⟩ := List.mem_flatten.1 hf
  rw [decide_eq_decide, (levelled_move hn hfeeds).changed_iff (movable_of_mem_ops h hfeeds) hf,
    mem_flips_iff hn hfeeds hf]

end

/-- The flips of all ops balance each of them, also one that has no feeds. -/
theorem exists_settles (ht : t.Recorded) {ops : List (List Feed)}
    (hops : t.ops.values.map (·.map (·.2)) = ops) (hn : (ops.flatten.map (·.pipe)).Nodup)
    (h : e.Movable (ops.flatten.map (·.pipe))) {op : String} (hfits : e.LoadFits (t.feeds op)) :
    ∃ l l', t.Settles op e (e.move ((ops.flatMap e.flips).map (·.pipe))) l l' := by
  rcases t.feeds_mem op with hnil | hmem
  · refine settles_of_levelled ?_ ?_ ?_ (ht.loopback_of_switchable op) hfits <;> rw [hnil]
    · exact List.forall_mem_nil _
    · exact List.nodup_nil
    · exact List.forall_mem_nil _
  · rw [hops] at hmem
    exact settles_of_levelled (levelled_move hn hmem) (nodup_of_mem_ops hn hmem)
      (movable_of_mem_ops h hmem) (ht.loopback_of_switchable op) hfits

/-- Balancing moves, for each op, the first loopbacks in input order that may leave its busier
network: as many as half the difference, or all there are. A second run moves nothing. This is so
when the load of every op fits a word, as it does with fewer than `2 ^ 31` inputs; otherwise
balancing is a fault. -/
theorem balance_exact (ht : t.Recorded) (hn : t.pipes.Nodup) (h : e.Movable t.pipes) :
    ((∀ op n, e.loadOn (t.feeds op) n < 2 ^ 32) →
      ∃ stats e', t.balance e = (.ok stats, e') ∧ t.balance e' = (.ok {}, e') ∧
        e.Rerouted e' ∧ (∀ id ∉ t.pipes, e'.pipes.get? id = e.pipes.get? id) ∧
        stats.pipesFlipped =
          (t.pipes.filter fun id => e'.pipes.get? id ≠ e.pipes.get? id).length ∧
        ∀ op, (t.entries op).Pairwise (·.1 < ·.1) ∧ ∃ l l', t.Settles op e e' l l') ∧
    ((∃ op n, 2 ^ 32 ≤ e.loadOn (t.feeds op) n) → (t.balance e).1 = fault .overflow) ∧
    ∀ op, (t.feeds op).length < 2 ^ 31 → ∀ n, e.loadOn (t.feeds op) n < 2 ^ 32 := by
  refine ⟨fun hfits => ?_, ?_, fun op => e.loadFits_of_length⟩
  · have hwrites := balanceOps_writes (t.ops.values.map (·.map (·.2))) {} e
    rw [← flatten_pipes] at hn h ⊢
    simp only [balance]
    generalize hops : t.ops.values.map (·.map (·.2)) = ops at hn h hwrites ⊢
    have hmem (feeds : List Feed) (hfeeds : feeds ∈ ops) : ∃ op, feeds = t.feeds op :=
      exists_op_of_mem (hops ▸ hfeeds)
    have hs (feeds : List Feed) (hfeeds : feeds ∈ ops) :
        ∀ f ∈ feeds, f.switchable = true → f.loopback = true := by
      obtain ⟨op, rfl⟩ := hmem feeds hfeeds
      exact ht.loopback_of_switchable op
    have hload (feeds : List Feed) (hfeeds : feeds ∈ ops) : e.LoadFits feeds := by
      obtain ⟨op, rfl⟩ := hmem feeds hfeeds
      exact hfits op
    have hsub := (flips_flatMap_sublist e ops).map (·.pipe)
    have heq := balanceOps_eq {} hn h (fun f hf => by
      obtain ⟨feeds, hfeeds, hf⟩ := List.mem_flatten.1 hf
      exact hs feeds hfeeds f hf) hload
    rw [heq] at hwrites ⊢
    refine ⟨_, _, rfl, balanceOps_move hn h hs hload, hwrites.rerouted, fun id hid => ?_, ?_,
      fun op => ⟨ht.ascending op, exists_settles ht hops hn h (hfits op)⟩⟩
    · rw [get?_move (hn.sublist hsub), if_neg fun hmoved => hid (hsub.subset hmoved)]
    · rw [filter_changed_move hn h, List.length_map]
      exact Nat.zero_add _
  · rintro ⟨op, n, hover⟩
    rcases balance_cases hn h with ⟨_, _, _, hfits⟩ | ⟨hfault, _⟩
    · exact absurd (hfits op n) (Nat.not_lt.2 hover)
    · exact hfault

/-- A pipe with a routing over the given networks. -/
def routedOver (id : UInt64) (incoming outgoing : Network) : PipeId × Pipe :=
  (⟨id⟩, ⟨⟨id⟩, [], [], [],
    some ⟨some ⟨incoming, outgoing, .unicast, .unicast⟩, false, .exact, false⟩⟩)

/-- Pipes into two ops, with an ethernet pipe among them. -/
def twoLoads : Epoch where
  index := 0
  device := { gridX := 8, gridY := 4, ethernet := [], l1Bytes := 1024, reservedBytes := 0 }
  ops := .empty
  buffers := .empty
  pipes := .ofList [routedOver 1 .noc0 .noc0, routedOver 2 .noc0 .noc0, routedOver 3 .noc0 .noc0,
    (⟨4⟩, ⟨⟨4⟩, [], [], [], some ⟨none, false, .exact, false⟩⟩), routedOver 5 .noc1 .noc1,
    routedOver 6 .noc1 .noc1, routedOver 7 .noc0 .noc1]

/-- The inputs of the two ops, not in order. -/
def twoTallies : Balancer :=
  ((((((empty.record "sum" 2 ⟨1⟩ true false).record "sum" 0 ⟨2⟩ true false).record
    "sum" 1 ⟨3⟩ true true).record "sum" 3 ⟨4⟩ true false).record "max" 7 ⟨5⟩ true false).record
    "max" 1 ⟨6⟩ true false).record "max" 4 ⟨7⟩ true false

/-- The sum has a loopback too few to move, and the maximum one more than is moved. -/
theorem balance_exact_twoLoads :
    twoTallies.Recorded ∧ twoTallies.pipes.Nodup ∧ twoLoads.Movable twoTallies.pipes ∧
    ∃ e', twoTallies.balance twoLoads = (.ok ⟨2, 4⟩, e') ∧ twoTallies.balance e' = (.ok {}, e') ∧
      (twoTallies.flipped twoLoads e' "sum").map (·.pipe) = [⟨2⟩, ⟨1⟩] ∧
      (∃ l', twoTallies.load e' "sum" = .ok l' ∧ l'.imbalance = .ok 2) ∧
      (twoTallies.flipped twoLoads e' "max").map (·.pipe) = [⟨6⟩, ⟨7⟩] ∧
      ∃ l', twoTallies.load e' "max" = .ok l' ∧ l'.imbalance = .ok 0 := by
  have ht : twoTallies.Recorded := .record (.record (.record (.record (.record (.record (.record
    .empty _ _ _ _ _) _ _ _ _ _) _ _ _ _ _) _ _ _ _ _) _ _ _ _ _) _ _ _ _ _) _ _ _ _ _
  have hn : twoTallies.pipes.Nodup := by decide
  have hm : twoLoads.Movable twoTallies.pipes := by
    have hfresh : ∀ id ∈ twoTallies.pipes, ∃ p ∈ twoLoads.pipes.get? id,
        ∀ r ∈ p.routing, r.rebalanced = false := by decide
    exact hfresh
  have hstats : (twoTallies.balance twoLoads).1 = .ok ⟨2, 4⟩ := by decide
  have hsum : twoTallies.load twoLoads "sum" = .ok ⟨⟨3, 0⟩, ⟨3, 0⟩, ⟨2, 0⟩⟩ := by decide
  have hmax : twoTallies.load twoLoads "max" = .ok ⟨⟨1, 2⟩, ⟨0, 3⟩, ⟨0, 3⟩⟩ := by decide
  have hlength (op : String) : (twoTallies.feeds op).length < 2 ^ 31 := by
    rcases twoTallies.feeds_mem op with hnil | hmem
    · rw [hnil]
      decide
    · exact (by decide : ∀ feeds ∈ twoTallies.ops.values.map (·.map (·.2)),
        feeds.length < 2 ^ 31) _ hmem
  obtain ⟨hexact, _, hfits⟩ := balance_exact ht hn hm
  obtain ⟨stats, e', hbalance, hagain, _, _, _, hop⟩ := hexact fun op => hfits op (hlength op)
  obtain ⟨l₁, l₁', h₁⟩ := (hop "sum").2
  obtain ⟨l₂, l₂', h₂⟩ := (hop "max").2
  cases hsum.symm.trans h₁.before
  cases hmax.symm.trans h₂.before
  rw [hbalance] at hstats
  cases hstats
  refine ⟨ht, hn, hm, e', hbalance, hagain, ?_, ⟨l₁', h₁.after, ?_⟩, ?_, ⟨l₂', h₂.after, ?_⟩⟩
  · rw [h₁.flipped_eq]
    decide
  · rw [h₁.imbalance_after, h₁.evens.shift]
    decide
  · rw [h₂.flipped_eq]
    decide
  · rw [h₂.imbalance_after, h₂.evens.shift]
    decide

/-! ## Ops with too many inputs -/

/-- One loopback on `noc0` for each of `k` inputs. -/
def manyLoopbacks (k : Nat) : Epoch :=
  { twoLoads with
    pipes := .ofList ((List.range k).map fun i => routedOver (.ofNat i) .noc0 .noc0) }

/-- The records of the loopbacks, in the order of the inputs. -/
def manyRecords : Nat → Balancer
  | 0 => empty
  | k + 1 => (manyRecords k).record "sum" (.ofNat k) ⟨.ofNat k⟩ true false

section

variable {k : Nat}

private theorem manyRecords_recorded (k : Nat) : (manyRecords k).Recorded := by
  induction k with
  | zero => exact .empty
  | succ k ih => exact .record ih ..

private theorem manyRecords_pipes (k : Nat) :
    (manyRecords k).pipes.Subperm ((List.range k).map fun i => ⟨.ofNat i⟩) := by
  induction k with
  | zero => exact .refl _
  | succ k ih =>
    rw [List.range_succ, List.map_append]
    refine (record_pipes ..).trans (((List.subperm_cons _).2 ih).trans ?_)
    exact (List.perm_append_singleton ..).symm.subperm

private theorem ofNat_inj_of_lt {i j : Nat} (hi : i < 2 ^ 64) (hj : j < 2 ^ 64)
    (h : UInt64.ofNat i = UInt64.ofNat j) : i = j := by
  have htoNat := congrArg UInt64.toNat h
  rwa [UInt64.toNat_ofNat_of_lt' hi, UInt64.toNat_ofNat_of_lt' hj] at htoNat

private theorem manyRecords_nodup (hk : k ≤ 2 ^ 64) : (manyRecords k).pipes.Nodup := by
  obtain ⟨l, hperm, hsublist⟩ := manyRecords_pipes k
  refine hperm.nodup_iff.1 (List.Nodup.sublist hsublist (List.nodup_range.map_on ?_))
  intro i hi j hj heq
  rw [List.mem_range] at hi hj
  exact ofNat_inj_of_lt (by omega) (by omega) (congrArg PipeId.val heq)

/-- The records stand one behind the other. -/
private theorem manyRecords_entries (hk : k ≤ 2 ^ 64) : (manyRecords k).entries "sum" =
    (List.range k).map fun i => (.ofNat i, ⟨⟨.ofNat i⟩, true, true⟩) := by
  induction k with
  | zero => rfl
  | succ k ih =>
    rw [manyRecords, entries_record, if_pos rfl, ih (by omega), Feed.put_of_lt,
      List.range_succ, List.map_append]
    · rfl
    · intro x hx
      obtain ⟨i, hi, rfl⟩ := List.mem_map.1 hx
      rw [List.mem_range] at hi
      rw [UInt64.lt_iff_toNat_lt, UInt64.toNat_ofNat_of_lt' (show i < 2 ^ 64 by omega),
        UInt64.toNat_ofNat_of_lt' (show k < 2 ^ 64 by omega)]
      exact hi

/-- Every loopback is stored under its id. -/
private theorem manyLoopbacks_get? {i : Nat} (hi : i < k) :
    (manyLoopbacks k).pipes.get? ⟨.ofNat i⟩ = some (routedOver (.ofNat i) .noc0 .noc0).2 := by
  induction k with
  | zero => omega
  | succ k ih =>
    have hinsert : (manyLoopbacks (k + 1)).pipes =
        (manyLoopbacks k).pipes.insert ⟨.ofNat k⟩ (routedOver (.ofNat k) .noc0 .noc0).2 := by
      rw [manyLoopbacks, List.range_succ, List.map_append, Table.ofList, List.foldl_append]
      rfl
    rw [hinsert, Table.get?_insert]
    split
    · rename_i heq
      rw [PipeId.mk.inj heq]
    · rename_i hne
      exact ih (Nat.lt_of_le_of_ne (Nat.lt_succ_iff.1 hi) fun heq => hne (by rw [heq]))

private theorem manyLoopbacks_movable : (manyLoopbacks k).Movable (manyRecords k).pipes := by
  intro id hid
  obtain ⟨i, hi, rfl⟩ := List.mem_map.1 ((manyRecords_pipes k).subset hid)
  refine ⟨_, manyLoopbacks_get? (List.mem_range.1 hi), fun r hr => ?_⟩
  cases hr
  rfl

/-- Each loopback comes in and leaves on `noc0`. -/
private theorem manyLoopbacks_loadOn (hk : k ≤ 2 ^ 64) :
    (manyLoopbacks k).loadOn ((manyRecords k).feeds "sum") .noc0 = k + k := by
  have hroute {f : Feed} (hf : f ∈ (manyRecords k).feeds "sum") :
      f.loopback = true ∧ (manyLoopbacks k).route? f.pipe =
        some ⟨.noc0, .noc0, .unicast, .unicast⟩ := by
    obtain ⟨entry, hentry, rfl⟩ := List.mem_map.1 hf
    change entry ∈ (manyRecords k).entries "sum" at hentry
    rw [manyRecords_entries hk] at hentry
    obtain ⟨i, hi, rfl⟩ := List.mem_map.1 hentry
    refine ⟨rfl, ?_⟩
    rw [route?, manyLoopbacks_get? (List.mem_range.1 hi)]
    rfl
  have hlength : ((manyRecords k).feeds "sum").length = k := by
    have hentries := congrArg List.length (manyRecords_entries hk)
    rw [List.length_map, List.length_range] at hentries
    rw [feeds, List.length_map]
    exact hentries
  have hentering : (manyLoopbacks k).entering ((manyRecords k).feeds "sum") .noc0 = k := by
    rw [entering, List.countP_eq_length.2 fun f hf => by rw [(hroute hf).2]; rfl, hlength]
  have hlooping : (manyLoopbacks k).looping ((manyRecords k).feeds "sum") .noc0 = k := by
    rw [looping, List.countP_eq_length.2 fun f hf => by rw [(hroute hf).2, (hroute hf).1]; rfl,
      hlength]
  rw [loadOn, hentering, hlooping]

end

/-- An op with `2 ^ 31` loopbacks on one network cannot be balanced, though its pipes are different,
stored, and have not been moved. -/
theorem balance_overflows :
    ∃ t e, Recorded t ∧ t.pipes.Nodup ∧ e.Movable t.pipes ∧ (t.balance e).1 = fault .overflow := by
  have hnodup := manyRecords_nodup (k := 2 ^ 31) (by decide)
  refine ⟨manyRecords (2 ^ 31), manyLoopbacks (2 ^ 31), manyRecords_recorded _, hnodup,
    manyLoopbacks_movable, ?_⟩
  rcases balance_cases hnodup manyLoopbacks_movable with ⟨_, _, _, hfits⟩ | ⟨hfault, _⟩
  · have hload := hfits "sum" .noc0
    rw [manyLoopbacks_loadOn (by decide)] at hload
    exact absurd hload (by decide)
  · exact hfault

end Balancer

end TorusRouting
