import Mathlib.Logic.Relation
import TorusRouting.Pass
import TorusRouting.Proofs.Keyed
import TorusRouting.Proofs.Outcome

/-!
# What routing changes

Whether it succeeds or not, routing is a sequence of writes, each of which gives a pipe its routing
or moves the outgoing network of one. So nothing changes but routings of pipes, and none is removed.
A routing is written once, and its outgoing network moved at most once after that.
-/

namespace TorusRouting

namespace Pipe

/-- A routing can be written where there is none. -/
theorem assign_eq_ok {p p' : Pipe} {r : Routing} :
    p.assign r = .ok p' ↔ p.routing = none ∧ p' = { p with routing := some r } := by
  unfold assign
  cases p.routing with
  | none =>
    simp only [Except.ok.injEq, true_and]
    exact eq_comm
  | some r' => simp [reject]

/-- An outgoing network can be moved once, where there is a route. -/
theorem rebalance_eq_ok {p p' : Pipe} {n : Network} :
    p.rebalance n = .ok p' ↔ ∃ r l, p.routing = some r ∧ r.rebalanced = false ∧
      r.route = some l ∧ p' = { p with routing := some { r with
        route := some { l with outgoing := n }, rebalanced := true } } := by
  constructor
  · intro h
    unfold rebalance at h
    split at h
    · cases h
    · rename_i r hr
      split at h
      · cases h
      · rename_i hb
        split at h
        · cases h
        · rename_i l hl
          cases h
          exact ⟨r, l, hr, Bool.eq_false_iff.2 hb, hl, rfl⟩
  · rintro ⟨r, l, hr, hb, hl, rfl⟩
    simp [rebalance, hr, hb, hl]

end Pipe

namespace Epoch

/-- Only routings of pipes differ, and none was removed. -/
structure Rerouted (e e' : Epoch) : Prop where
  index : e'.index = e.index
  device : e'.device = e.device
  ops : e'.ops = e.ops
  buffers : e'.buffers = e.buffers
  keys : e'.pipes.keys = e.pipes.keys
  pipe : ∀ id p, e.pipes.get? id = some p →
    ∃ p', e'.pipes.get? id = some p' ∧ p' = { p with routing := p'.routing } ∧
      (p.routing.isSome → p'.routing.isSome)

/-- Every pipe has a routing. -/
def Routed (e : Epoch) : Prop := ∀ p ∈ e.pipes.values, p.routing.isSome

variable {e e' e'' : Epoch}

namespace Rerouted

/-- An epoch differs from itself in no routing. -/
theorem refl (e : Epoch) : e.Rerouted e :=
  ⟨rfl, rfl, rfl, rfl, rfl, fun _ p hp => ⟨p, hp, rfl, id⟩⟩

/-- Routings are written in two stretches. -/
theorem trans (h : e.Rerouted e') (h' : e'.Rerouted e'') : e.Rerouted e'' where
  index := h'.index.trans h.index
  device := h'.device.trans h.device
  ops := h'.ops.trans h.ops
  buffers := h'.buffers.trans h.buffers
  keys := h'.keys.trans h.keys
  pipe := by
    intro id p hp
    obtain ⟨p', hp', hs, hkept⟩ := h.pipe id p hp
    obtain ⟨p'', hp'', hs', hkept'⟩ := h'.pipe id p' hp'
    refine ⟨p'', hp'', ?_, fun hr => hkept' (hkept hr)⟩
    rw [hs', hs]

/-- Every pipe stays under its id. -/
theorem wellKeyed (h : e.Rerouted e') (hk : e.WellKeyed) : e'.WellKeyed where
  ops := h.ops ▸ hk.ops
  buffers := h.buffers ▸ hk.buffers
  pipes := by
    refine hk.pipes.of_keys_eq h.keys fun id p hp => ?_
    obtain ⟨p', hp', hs, _⟩ := h.pipe id p hp
    exact ⟨p', hp', by rw [hs]⟩

/-- Routed pipes stay routed. -/
theorem routed (h : e.Rerouted e') (hr : e.Routed) : e'.Routed := by
  intro p' hm
  obtain ⟨id, hm⟩ := Table.mem_values.1 hm
  have hp' : e'.pipes.get? id = some p' := Table.get?_eq_some_iff.2 hm
  obtain ⟨p, hp⟩ := Table.exists_get?_of_keys_eq h.keys hp'
  obtain ⟨p'', hp'', _, hkept⟩ := h.pipe id p hp
  cases hp'.symm.trans hp''
  exact hkept (hr p (Table.mem_values_of_get? hp))

end Rerouted

/-- Replacing a stored pipe by one with another routing. -/
theorem setPipe_rerouted {id : PipeId} {p p' : Pipe} (hp : e.pipes.get? id = some p)
    (hs : p' = { p with routing := p'.routing }) (hr : p'.routing.isSome) :
    e.Rerouted (e.setPipe id p') where
  index := rfl
  device := rfl
  ops := rfl
  buffers := rfl
  keys := Table.keys_modify ..
  pipe := by
    intro j q hq
    simp only [setPipe, Table.get?_modify]
    by_cases hj : id = j
    · subst hj
      cases hp.symm.trans hq
      exact ⟨p', by simp [hp], hs, fun _ => hr⟩
    · exact ⟨q, by simp [hj, hq], rfl, fun hr => hr⟩

/-- A pipe is looked up by its id. -/
theorem pipe_eq_ok {id : PipeId} {p : Pipe} : e.pipe id = .ok p ↔ e.pipes.get? id = some p := by
  unfold pipe
  cases e.pipes.get? id with
  | none => simp [reject]
  | some q => simp

/-- A routing is written into a stored pipe that has none. -/
theorem assign_eq_ok {id : PipeId} {r : Routing} :
    e.assign id r = .ok e' ↔ ∃ p, e.pipes.get? id = some p ∧ p.routing = none ∧
      e' = e.setPipe id { p with routing := some r } := by
  rw [assign, bind_eq_ok]
  constructor
  · rintro ⟨p, hp, h⟩
    obtain ⟨p', hp', h⟩ := bind_eq_ok.1 h
    obtain ⟨hnone, rfl⟩ := Pipe.assign_eq_ok.1 hp'
    exact ⟨p, pipe_eq_ok.1 hp, hnone, (pure_eq_ok.1 h).symm⟩
  · rintro ⟨p, hp, hnone, rfl⟩
    exact ⟨p, pipe_eq_ok.2 hp, bind_eq_ok.2 ⟨_, Pipe.assign_eq_ok.2 ⟨hnone, rfl⟩, rfl⟩⟩

/-- The outgoing network of a stored pipe is moved, if it never was before. -/
theorem rebalance_eq_ok {id : PipeId} {n : Network} :
    e.rebalance id n = .ok e' ↔ ∃ p r l, e.pipes.get? id = some p ∧ p.routing = some r ∧
      r.rebalanced = false ∧ r.route = some l ∧ e' = e.setPipe id { p with routing := some { r with
        route := some { l with outgoing := n }, rebalanced := true } } := by
  rw [rebalance, bind_eq_ok]
  constructor
  · rintro ⟨p, hp, h⟩
    obtain ⟨p', hp', h⟩ := bind_eq_ok.1 h
    obtain ⟨r, l, hr, hb, hl, rfl⟩ := Pipe.rebalance_eq_ok.1 hp'
    exact ⟨p, r, l, pipe_eq_ok.1 hp, hr, hb, hl, (pure_eq_ok.1 h).symm⟩
  · rintro ⟨p, r, l, hp, hr, hb, hl, rfl⟩
    exact ⟨p, pipe_eq_ok.2 hp,
      bind_eq_ok.2 ⟨_, Pipe.rebalance_eq_ok.2 ⟨r, l, hr, hb, hl, rfl⟩, rfl⟩⟩

/-! ## Sequences of writes -/

/-- One pipe was given its routing, or its outgoing network was moved. -/
inductive Write (e : Epoch) : Epoch → Prop
  | assign {id : PipeId} {r : Routing} {e' : Epoch} (h : e.assign id r = .ok e') : Write e e'
  | rebalance {id : PipeId} {n : Network} {e' : Epoch} (h : e.rebalance id n = .ok e') : Write e e'

/-- Any number of writes, one after the other. -/
abbrev Writes : Epoch → Epoch → Prop := Relation.ReflTransGen Write

/-- A write changes a routing only. -/
theorem Write.rerouted (h : e.Write e') : e.Rerouted e' := by
  cases h with
  | assign h =>
    obtain ⟨p, hp, _, rfl⟩ := assign_eq_ok.1 h
    exact setPipe_rerouted hp rfl rfl
  | rebalance h =>
    obtain ⟨p, r, l, hp, _, _, _, rfl⟩ := rebalance_eq_ok.1 h
    exact setPipe_rerouted hp rfl rfl

/-- Any number of writes changes routings only. -/
theorem Writes.rerouted (h : e.Writes e') : e.Rerouted e' := by
  induction h with
  | refl => exact .refl e
  | tail _ hw ih => exact ih.trans hw.rerouted

/-- Writing decisions is a sequence of writes, up to the one that is refused. -/
theorem assignAll_writes (ds : List Decision) (e : Epoch) : e.Writes (assignAll ds e).2 := by
  induction ds generalizing e with
  | nil => exact .refl
  | cons d ds ih =>
    rw [assignAll]
    split
    · exact .refl
    · rename_i e₁ h
      exact .head (.assign h) (ih e₁)

end Epoch

namespace Balancer

open Epoch

/-- Moving feeds is a sequence of writes, up to the one that is refused. -/
theorem flip_writes (off : Network) (count : Nat) (feeds : List Feed) (e : Epoch) :
    e.Writes (flip off count feeds e).2 := by
  induction feeds generalizing count e with
  | nil => cases count <;> exact .refl
  | cons f feeds ih =>
    cases count with
    | zero => exact .refl
    | succ count =>
      rw [flip]
      split
      · exact .refl
      · rename_i p hp
        split
        · split
          · exact .refl
          · rename_i p' hp'
            have hmove : e.rebalance f.pipe off.other = .ok (e.setPipe f.pipe p') :=
              bind_eq_ok.2 ⟨p, hp, bind_eq_ok.2 ⟨p', hp', rfl⟩⟩
            exact .head (.rebalance hmove) (ih count _)
        · exact ih (count + 1) e

/-- Balancing is a sequence of writes, also where it fails. -/
theorem balanceOps_writes (ops : List (List Feed)) (s : LoopbackStats) (e : Epoch) :
    e.Writes (balanceOps ops s e).2 := by
  induction ops generalizing s e with
  | nil => exact .refl
  | cons feeds ops ih =>
    rw [balanceOps]
    split
    · exact .refl
    · exact ih s e
    · rename_i off count _
      have hflip := flip_writes off count (feeds.filter (·.switchable)) e
      split
      · rename_i h
        rw [h] at hflip
        exact hflip
      · rename_i h
        rw [h] at hflip
        exact hflip.trans (ih ..)

end Balancer

namespace Epoch

/-- Whatever the outcome, routing is a sequence of writes. -/
theorem routeValid_writes (e : Epoch) (config : Config) (oracle : Oracle) :
    e.Writes (e.routeValid config oracle).2 := by
  rw [routeValid]
  split
  · exact .refl
  · rename_i ds _
    have hassign := assignAll_writes ds e
    split
    · rename_i h
      rw [h] at hassign
      exact hassign
    · rename_i e₁ h
      rw [h] at hassign
      have hbalance := Balancer.balanceOps_writes ((tally ds).ops.values.map (·.map (·.2))) {} e₁
      split
      · rename_i h
        rw [Balancer.balance] at h
        rw [h] at hbalance
        exact hassign.trans hbalance
      · rename_i h
        rw [Balancer.balance] at h
        rw [h] at hbalance
        exact hassign.trans hbalance

/-- Routing the pipes is a sequence of writes, also where it fails. -/
theorem routePipes_writes (e : Epoch) (config : Config) (oracle : Oracle) :
    e.Writes (e.routePipes config oracle).2 := by
  rw [routePipes]
  split
  · exact .refl
  · exact routeValid_writes e config oracle

/-- Whatever the outcome, routing changes routings only. -/
theorem routeValid_rerouted (e : Epoch) (config : Config) (oracle : Oracle) :
    e.Rerouted (e.routeValid config oracle).2 := (routeValid_writes e config oracle).rerouted

/-- Routing the pipes changes routings only. -/
theorem routePipes_rerouted (e : Epoch) (config : Config) (oracle : Oracle) :
    e.Rerouted (e.routePipes config oracle).2 := (routePipes_writes e config oracle).rerouted

end Epoch

end TorusRouting
