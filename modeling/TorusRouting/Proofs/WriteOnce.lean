import TorusRouting.Proofs.Relay.Frame
import TorusRouting.Proofs.Routing.Frame

/-!
# What a history of calls keeps

An epoch is changed by a few calls only, each of which may be refused or fail halfway. Whatever they
did, no entry is lost or moved, no allocation shrinks, and a routing stays as it was written, except
that its outgoing network moves at most once and is marked when it does.
-/

namespace TorusRouting

/-! ## What stays of an entry -/

/-- A later routing of the same pipe: the same one, or the one with the outgoing network moved. -/
inductive Routing.Kept (r : Routing) : Routing → Prop
  | same : Kept r r
  | moved {l : Route} (n : Network) (hfirst : r.rebalanced = false) (hl : r.route = some l) :
    Kept r { r with route := some { l with outgoing := n }, rebalanced := true }

/-- A routing that was moved stays as it is. -/
theorem Routing.Kept.eq_of_rebalanced {r r' : Routing} (h : r.Kept r')
    (hr : r.rebalanced = true) : r' = r := by
  cases h with
  | same => rfl
  | moved _ hfirst => cases hr.symm.trans hfirst

/-- A routing is kept over two stretches of a history. -/
theorem Routing.Kept.trans {r r' r'' : Routing} (h : r.Kept r') (h' : r'.Kept r'') :
    r.Kept r'' := by
  cases h with
  | same => exact h'
  | moved n hfirst hl =>
    rw [h'.eq_of_rebalanced rfl]
    exact .moved n hfirst hl

/-- A later state of the same pipe. -/
structure Pipe.Kept (p p' : Pipe) : Prop where
  same : p' = { p with routing := p'.routing }
  routing : ∀ r, p.routing = some r → ∃ r', p'.routing = some r' ∧ r.Kept r'

/-- A pipe keeps itself. -/
theorem Pipe.Kept.refl (p : Pipe) : p.Kept p := ⟨rfl, fun r hr => ⟨r, hr, .same⟩⟩

/-- A pipe is kept over two stretches of a history. -/
theorem Pipe.Kept.trans {p p' p'' : Pipe} (h : p.Kept p') (h' : p'.Kept p'') : p.Kept p'' where
  same := by rw [h'.same, h.same]
  routing := by
    intro r hr
    obtain ⟨r', hr', hkept⟩ := h.routing r hr
    obtain ⟨r'', hr'', hkept'⟩ := h'.routing r' hr'
    exact ⟨r'', hr'', hkept.trans hkept'⟩

/-- A later state of the same buffer. -/
structure Buffer.Kept (b b' : Buffer) : Prop where
  same : b' = { b with allocated := b'.allocated }
  le : b.allocated ≤ b'.allocated

/-- A buffer keeps itself. -/
theorem Buffer.Kept.refl (b : Buffer) : b.Kept b := ⟨rfl, UInt64.le_refl _⟩

/-- A buffer is kept over two stretches of a history. -/
theorem Buffer.Kept.trans {b b' b'' : Buffer} (h : b.Kept b') (h' : b'.Kept b'') : b.Kept b'' where
  same := by rw [h'.same, h.same]
  le := UInt64.le_trans h.le h'.le

namespace Epoch

/-- A later, well-keyed state of an epoch. -/
structure Keeps (e e' : Epoch) : Prop where
  wellKeyed : e'.WellKeyed
  index : e'.index = e.index
  device : e'.device = e.device
  ops : e.ops.Extends Eq e'.ops
  buffers : e.buffers.Extends Buffer.Kept e'.buffers
  pipes : e.pipes.Extends Pipe.Kept e'.pipes

variable {e e' e'' : Epoch}

/-- A well-keyed epoch keeps itself. -/
theorem Keeps.refl (hk : e.WellKeyed) : e.Keeps e where
  wellKeyed := hk
  index := rfl
  device := rfl
  ops := .refl (fun _ => rfl) _
  buffers := .refl Buffer.Kept.refl _
  pipes := .refl Pipe.Kept.refl _

/-- An epoch is kept over two stretches of a history. -/
theorem Keeps.trans (h : e.Keeps e') (h' : e'.Keeps e'') : e.Keeps e'' where
  wellKeyed := h'.wellKeyed
  index := h'.index.trans h.index
  device := h'.device.trans h.device
  ops := h.ops.trans (fun _ _ _ => Eq.trans) h'.ops
  buffers := h.buffers.trans (fun _ _ _ => Buffer.Kept.trans) h'.buffers
  pipes := h.pipes.trans (fun _ _ _ => Pipe.Kept.trans) h'.pipes

/-! ## What single calls keep -/

private theorem addOp_keeps (hk : e.WellKeyed) {op : Op} (h : e.addOp op = .ok e') :
    e.Keeps e' := by
  obtain ⟨hnew, rfl⟩ := addOp_eq_ok.1 h
  exact { Keeps.refl hk with
    wellKeyed := { hk with ops := hk.ops.insert op }
    ops := .insert (fun _ => rfl) hnew op }

private theorem addBuffer_keeps (hk : e.WellKeyed) {b : Buffer} (h : e.addBuffer b = .ok e') :
    e.Keeps e' := by
  obtain ⟨hnew, rfl⟩ := addBuffer_eq_ok.1 h
  exact { Keeps.refl hk with
    wellKeyed := { hk with buffers := hk.buffers.insert b }
    buffers := .insert Buffer.Kept.refl hnew b }

private theorem addPipe_keeps (hk : e.WellKeyed) {p : Pipe} (h : e.addPipe p = .ok e') :
    e.Keeps e' := by
  obtain ⟨hnew, rfl⟩ := addPipe_eq_ok.1 h
  exact { Keeps.refl hk with
    wellKeyed := { hk with pipes := hk.pipes.insert p }
    pipes := .insert Pipe.Kept.refl hnew p }

/-- Replacing a stored pipe by a later state of it. -/
theorem setPipe_keeps (hk : e.WellKeyed) {id : PipeId} {p p' : Pipe}
    (hp : e.pipes.get? id = some p) (h : p.Kept p') (hr : p'.routing.isSome) :
    e.Keeps (e.setPipe id p') :=
  { Keeps.refl hk with
    wellKeyed := (setPipe_rerouted hp h.same hr).wellKeyed hk
    pipes := by
      refine ⟨?_, fun j q hq => ?_⟩
      · exact Table.keys_modify e.pipes id _ ▸ List.prefix_rfl
      · rw [setPipe, Table.get?_modify]
        by_cases hj : id = j
        · subst hj
          cases hp.symm.trans hq
          exact ⟨p', by rw [if_pos rfl, hp, Option.map_some], h⟩
        · exact ⟨q, by rw [if_neg hj, hq], .refl q⟩ }

/-- Giving a pipe its routing, or moving its outgoing network. -/
theorem Write.keeps (hk : e.WellKeyed) (h : e.Write e') : e.Keeps e' := by
  cases h with
  | assign h =>
    obtain ⟨p, hp, hnone, rfl⟩ := assign_eq_ok.1 h
    refine setPipe_keeps hk hp ⟨rfl, fun r hr => ?_⟩ rfl
    cases hnone.symm.trans hr
  | @rebalance _ n _ h =>
    obtain ⟨p, r, l, hp, hr, hfirst, hl, rfl⟩ := rebalance_eq_ok.1 h
    refine setPipe_keeps hk hp ⟨rfl, fun r' hr' => ?_⟩ rfl
    cases hr.symm.trans hr'
    exact ⟨_, rfl, .moved n hfirst hl⟩

/-- Writing routings keeps what is stored. -/
theorem Writes.keeps (hk : e.WellKeyed) (h : e.Writes e') : e.Keeps e' := by
  induction h with
  | refl => exact .refl hk
  | tail _ hw ih => exact ih.trans (hw.keeps ih.wellKeyed)

/-- Growth of relay buffers. -/
theorem Grows.keeps (hk : e.WellKeyed) {config : Config} {ids : List BufferId}
    (h : e.Grows config ids e') : e.Keeps e' where
  wellKeyed := h.wellKeyed hk
  index := h.index
  device := h.device
  ops := h.ops ▸ .refl (fun _ => rfl) _
  buffers := by
    refine ⟨h.keys ▸ List.prefix_rfl, fun id b hb => ?_⟩
    obtain ⟨b', hb', hgrows⟩ := h.buffer id b hb
    exact ⟨b', hb', hgrows.same, UInt64.le_iff_toNat_le.2 hgrows.le⟩
  pipes := h.pipes ▸ .refl Pipe.Kept.refl _

/-- Routing and then upsizing, whatever the outcome. -/
theorem runValid_keeps {σ : Type} [ResourceModel σ] (hk : e.WellKeyed) (config : Config)
    (oracle : Oracle) (logging : Logging) (m : σ) :
    e.Keeps (e.runValid config oracle logging m).2.1 := by
  have hroute := (routeValid_writes e config oracle).keeps hk
  rw [runValid]
  split
  · rename_i h
    rw [h] at hroute
    exact hroute
  · rename_i e₁ h
    rw [h] at hroute
    have hgrow := (upsize_grows hroute.wellKeyed config m).keeps hroute.wellKeyed
    split
    · rename_i h
      rw [h] at hgrow
      exact hroute.trans hgrow
    · rename_i h
      rw [h] at hgrow
      exact hroute.trans hgrow

/-- The pass keeps what is stored, also where it fails. -/
theorem run_keeps (hk : e.WellKeyed) (config : Config) (oracle : Oracle) (logging : Logging) :
    e.Keeps (e.run config oracle logging).2 := by
  rw [run]
  split
  · exact .refl hk
  · split
    · exact .refl hk
    · rename_i ledger _
      exact runValid_keeps hk config oracle logging ledger

end Epoch

/-! ## Histories -/

/-- The calls that change an epoch. -/
inductive Call : Type 1
  | addOp (op : Op)
  | addBuffer (b : Buffer)
  | addPipe (p : Pipe)
  | assign (id : PipeId) (r : Routing)
  | rebalance (id : PipeId) (n : Network)
  | balance (t : Balancer)
  | routePipes (config : Config) (oracle : Oracle)
  | run (config : Config) (oracle : Oracle) (logging : Logging)
  | upsize {σ : Type} [ResourceModel σ] (config : Config) (m : σ)

/-- The epoch that a call leaves behind. One that is refused changes nothing. -/
def Call.apply (e : Epoch) : Call → Epoch
  | addOp op => (e.addOp op).toOption.getD e
  | addBuffer b => (e.addBuffer b).toOption.getD e
  | addPipe p => (e.addPipe p).toOption.getD e
  | assign id r => (e.assign id r).toOption.getD e
  | rebalance id n => (e.rebalance id n).toOption.getD e
  | balance t => (t.balance e).2
  | routePipes config oracle => (e.routePipes config oracle).2
  | run config oracle logging => (e.run config oracle logging).2
  | upsize config m => (e.upsize config m).2.1

namespace Epoch

variable {e : Epoch}

/-- The epoch after the first `i` calls. -/
def stateAt (e : Epoch) (calls : List Call) (i : Nat) : Epoch := (calls.take i).foldl Call.apply e

/-- The routing of the pipe stored under a key. -/
def routing? (e : Epoch) (id : PipeId) : Option Routing := (e.pipes.get? id).bind (·.routing)

/-- The outgoing network of a routed pipe changes in call number `i`. -/
def MovesAt (e : Epoch) (calls : List Call) (id : PipeId) (i : Nat) : Prop :=
  ∃ r ∈ (e.stateAt calls i).routing? id, ∃ r' ∈ (e.stateAt calls (i + 1)).routing? id,
    r'.route.map (·.outgoing) ≠ r.route.map (·.outgoing)

/-- An update that is refused leaves the epoch. -/
theorem keeps_getD (hk : e.WellKeyed) {x : Outcome Epoch} (h : ∀ e', x = .ok e' → e.Keeps e') :
    e.Keeps (x.toOption.getD e) := by
  cases x with
  | error f => exact .refl hk
  | ok e' => exact h e' rfl

/-- Every call keeps what is stored, also where it fails. -/
theorem apply_keeps (hk : e.WellKeyed) (c : Call) : e.Keeps (c.apply e) := by
  cases c with
  | addOp op => exact keeps_getD hk fun _ h => addOp_keeps hk h
  | addBuffer b => exact keeps_getD hk fun _ h => addBuffer_keeps hk h
  | addPipe p => exact keeps_getD hk fun _ h => addPipe_keeps hk h
  | assign id r => exact keeps_getD hk fun _ h => (Write.assign h).keeps hk
  | rebalance id n => exact keeps_getD hk fun _ h => (Write.rebalance h).keeps hk
  | balance t => exact (Balancer.balanceOps_writes _ {} e).keeps hk
  | routePipes config oracle => exact (routePipes_writes e config oracle).keeps hk
  | run config oracle logging => exact run_keeps hk config oracle logging
  | upsize config m => exact (upsize_grows hk config m).keeps hk

/-- Any number of calls keeps what is stored. -/
theorem foldl_keeps (hk : e.WellKeyed) (calls : List Call) :
    e.Keeps (calls.foldl Call.apply e) := by
  induction calls generalizing e with
  | nil => exact .refl hk
  | cons c calls ih => exact (apply_keeps hk c).trans (ih (apply_keeps hk c).wellKeyed)

/-- A later state of a history keeps an earlier one. -/
theorem stateAt_keeps (hk : e.WellKeyed) (calls : List Call) {i j : Nat} (hij : i ≤ j) :
    (e.stateAt calls i).Keeps (e.stateAt calls j) := by
  have hi : (e.stateAt calls i).WellKeyed := (foldl_keeps hk (calls.take i)).wellKeyed
  have hsplit := (List.take_append_drop i (calls.take j)).symm
  rw [List.take_take, Nat.min_eq_left hij] at hsplit
  rw [stateAt, stateAt, hsplit, List.foldl_append]
  exact foldl_keeps hi _

/-- A routed pipe keeps its routing, up to one move. -/
theorem Keeps.routing? {e' : Epoch} (h : e.Keeps e') {id : PipeId} {r : Routing}
    (hr : e.routing? id = some r) : ∃ r', e'.routing? id = some r' ∧ r.Kept r' := by
  obtain ⟨p, hp, hr⟩ := Option.bind_eq_some_iff.1 hr
  obtain ⟨p', hp', hkept⟩ := h.pipes.value id p hp
  obtain ⟨r', hr', hkept'⟩ := hkept.routing r hr
  exact ⟨r', Option.bind_eq_some_iff.2 ⟨p', hp', hr'⟩, hkept'⟩

/-- A call that moves the outgoing network of a pipe marks the pipe, which was not marked before. -/
theorem marked_of_movesAt (hk : e.WellKeyed) {calls : List Call} {id : PipeId} {i : Nat}
    (h : e.MovesAt calls id i) :
    ((e.stateAt calls i).routing? id).map (·.rebalanced) = some false ∧
      ((e.stateAt calls (i + 1)).routing? id).map (·.rebalanced) = some true := by
  obtain ⟨r, hr, r', hr', hmoved⟩ := h
  obtain ⟨r'', hr'', hkept⟩ := (stateAt_keeps hk calls i.le_succ).routing? hr
  cases hr'.symm.trans hr''
  cases hkept with
  | same => exact absurd rfl hmoved
  | moved n hfirst hl =>
    rw [hr, hr', Option.map_some, Option.map_some, hfirst]
    exact ⟨rfl, rfl⟩

/-- After a pipe was moved it is never moved again. -/
theorem not_movesAt_of_lt (hk : e.WellKeyed) {calls : List Call} {id : PipeId} {i j : Nat}
    (h : e.MovesAt calls id i) (hij : i < j) : ¬ e.MovesAt calls id j := by
  intro h'
  obtain ⟨r, hr, hmarked⟩ := Option.map_eq_some_iff.1 (marked_of_movesAt hk h).2
  obtain ⟨r', hr', hkept⟩ := (stateAt_keeps hk calls hij).routing? hr
  have hfirst := (marked_of_movesAt hk h').1
  rw [hr', hkept.eq_of_rebalanced hmarked, Option.map_some, hmarked] at hfirst
  cases hfirst

/-- Along every history of calls on a well-keyed epoch, refused and failed ones included, the epoch
stays well-keyed, and no op, buffer or pipe is lost or changes its place. A routing, once written,
keeps everything but its outgoing network and its mark. The outgoing network of a pipe changes in at
most one call, which sets the mark, and the mark is never taken back. No allocation shrinks. -/
theorem write_once_history (hk : e.WellKeyed) (calls : List Call) :
    (∀ i, (e.stateAt calls i).WellKeyed) ∧
    (∀ i j, i ≤ j →
      (e.stateAt calls i).ops.keys <+: (e.stateAt calls j).ops.keys ∧
      (e.stateAt calls i).buffers.keys <+: (e.stateAt calls j).buffers.keys ∧
      (e.stateAt calls i).pipes.keys <+: (e.stateAt calls j).pipes.keys ∧
      (∀ id, ∀ r ∈ (e.stateAt calls i).routing? id, ∃ r' ∈ (e.stateAt calls j).routing? id,
        r'.route.isSome = r.route.isSome ∧
        r'.route.map (·.incoming) = r.route.map (·.incoming) ∧
        r'.route.map (·.incomingVc) = r.route.map (·.incomingVc) ∧
        r'.route.map (·.outgoingVc) = r.route.map (·.outgoingVc) ∧
        r'.direct = r.direct ∧ r'.fit = r.fit ∧
        (r.rebalanced = true → r'.rebalanced = true)) ∧
      ∀ id, ∀ b ∈ (e.stateAt calls i).buffers.get? id, ∃ b' ∈ (e.stateAt calls j).buffers.get? id,
        b.allocated ≤ b'.allocated) ∧
    ∀ id i, e.MovesAt calls id i →
      ((e.stateAt calls i).routing? id).map (·.rebalanced) = some false ∧
      ((e.stateAt calls (i + 1)).routing? id).map (·.rebalanced) = some true ∧
      ∀ j, e.MovesAt calls id j → j = i := by
  refine ⟨fun i => (stateAt_keeps hk calls (Nat.le_refl i)).wellKeyed, fun i j hij => ?_, ?_⟩
  · have hkeeps := stateAt_keeps hk calls hij
    refine ⟨hkeeps.ops.keys, hkeeps.buffers.keys, hkeeps.pipes.keys, fun id r hr => ?_,
      fun id b hb => ?_⟩
    · obtain ⟨r', hr', hkept⟩ := hkeeps.routing? hr
      refine ⟨r', hr', ?_⟩
      cases hkept with
      | same => simp
      | moved n hfirst hl => simp [hl]
    · obtain ⟨b', hb', hkept⟩ := hkeeps.buffers.value id b hb
      exact ⟨b', hb', hkept.le⟩
  · intro id i h
    obtain ⟨hfirst, hmarked⟩ := marked_of_movesAt hk h
    refine ⟨hfirst, hmarked, fun j h' => ?_⟩
    rcases Nat.lt_trichotomy i j with hlt | heq | hlt
    · exact absurd h' (not_movesAt_of_lt hk h hlt)
    · exact heq.symm
    · exact absurd h (not_movesAt_of_lt hk h' hlt)

/-- One relay pipe, between relay buffers that can grow. -/
def relayHop : Epoch where
  index := 0
  device := { gridX := 4, gridY := 4, ethernet := [], l1Bytes := 1024, reservedBytes := 0 }
  ops := .empty
  buffers := .ofList [
    (⟨1⟩, ⟨⟨1⟩, .relay, ⟨0, 0, 0⟩, none, none, 16, 2, 8, 2⟩),
    (⟨2⟩, ⟨⟨2⟩, .relay, ⟨0, 1, 0⟩, none, none, 16, 2, 8, 2⟩)]
  pipes := .ofList [(⟨10⟩, ⟨⟨10⟩, [⟨1⟩], [[⟨2⟩]], [], none⟩)]

/-- The pipe is routed by the pass and moved by hand; a second move is refused. -/
theorem write_once_history_relayHop :
    relayHop.WellKeyed ∧ ∃ calls : List Call, calls.length = 3 ∧
      relayHop.MovesAt calls ⟨10⟩ 1 ∧ ¬ relayHop.MovesAt calls ⟨10⟩ 2 := by
  have hk : relayHop.WellKeyed := by decide
  let calls : List Call := [.run {} .adjacent .on, .rebalance ⟨10⟩ .noc1, .rebalance ⟨10⟩ .noc0]
  have hmoves : relayHop.MovesAt calls ⟨10⟩ 1 := by
    refine ⟨⟨some ⟨.noc0, .noc0, .unicast, .unicast⟩, false, .exact, false⟩, ?_,
      ⟨some ⟨.noc0, .noc1, .unicast, .unicast⟩, false, .exact, true⟩, ?_, by decide⟩
    all_goals decide +kernel
  obtain ⟨_, _, honce⟩ := write_once_history hk calls
  refine ⟨hk, calls, rfl, hmoves, fun h => ?_⟩
  exact absurd ((honce ⟨10⟩ 1 hmoves).2.2 2 h) (by decide)

end Epoch

end TorusRouting
