import Mathlib.Data.List.Perm.Subperm
import TorusRouting.Proofs.Routing.Load

/-!
# Balancing cannot fail on fresh routings

Balancing moves the outgoing network of a recorded pipe, which is allowed once for each pipe. Every
pipe is recorded for at most one input, so no pipe is moved twice. As long as the recorded pipes are
stored and none of them has been moved before, balancing therefore succeeds if the load of every op
fits a word, and is a fault otherwise.
-/

namespace TorusRouting

namespace Epoch

/-- The listed pipes are stored and none has been moved to another network. -/
def Movable (e : Epoch) (ids : List PipeId) : Prop :=
  ∀ id ∈ ids, ∃ p, e.pipes.get? id = some p ∧ ∀ r, p.routing = some r → r.rebalanced = false

/-- Fewer pipes can be moved if all can. -/
theorem Movable.mono {e : Epoch} {ids ids' : List PipeId} (h : e.Movable ids) (hs : ids' ⊆ ids) :
    e.Movable ids' := fun id hid => h id (hs hid)

/-- Pipes that are stored as they were can be moved as they could. -/
theorem Movable.congr {e e' : Epoch} {ids : List PipeId} (h : e.Movable ids)
    (hs : ∀ id ∈ ids, e'.pipes.get? id = e.pipes.get? id) : e'.Movable ids := by
  intro id hid
  rw [hs id hid]
  exact h id hid

/-- Pipes that can be moved are stored. -/
theorem Movable.stored {e : Epoch} {ids : List PipeId} (h : e.Movable ids) : e.Stored ids := by
  intro id hid
  obtain ⟨p, hp, _⟩ := h id hid
  exact Option.isSome_of_eq_some hp

end Epoch

namespace Balancer

variable {e e' : Epoch}

/-- Distinct movable feeds are moved without failing, and no other pipe is. -/
theorem exists_flip {feeds : List Feed} (off : Network) (count : Nat)
    (hn : (feeds.map (·.pipe)).Nodup) (h : e.Movable (feeds.map (·.pipe))) :
    ∃ moved e', flip off count feeds e = (.ok moved, e') ∧
      ∀ id, id ∉ feeds.map (·.pipe) → e'.pipes.get? id = e.pipes.get? id := by
  induction feeds generalizing count e with
  | nil => cases count <;> exact ⟨0, e, rfl, fun _ _ => rfl⟩
  | cons f feeds ih =>
    cases count with
    | zero => exact ⟨0, e, rfl, fun _ _ => rfl⟩
    | succ count =>
      rw [List.map_cons, List.nodup_cons] at hn
      obtain ⟨p, hp, hfresh⟩ := h f.pipe (List.mem_cons_self ..)
      have hrest := h.mono (List.subset_cons_self ..)
      rw [flip, Epoch.pipe_eq_ok.2 hp]
      dsimp only
      split
      · rename_i hoff
        obtain ⟨l, hl, _⟩ := Option.map_eq_some_iff.1 hoff
        obtain ⟨r, hr, hl⟩ := Option.bind_eq_some_iff.1 hl
        obtain ⟨p', hp'⟩ : ∃ p', p.rebalance off.other = .ok p' :=
          ⟨_, Pipe.rebalance_eq_ok.2 ⟨r, l, hr, hfresh r hr, hl, rfl⟩⟩
        have hother (id : PipeId) (hid : f.pipe ≠ id) :
            (e.setPipe f.pipe p').pipes.get? id = e.pipes.get? id := by
          simp only [Epoch.setPipe, Table.get?_modify, if_neg hid]
        have hrest' := hrest.congr fun id hid => hother id fun heq => hn.1 (heq ▸ hid)
        obtain ⟨moved, e', heq, hkeep⟩ := ih count hn.2 hrest'
        rw [hp']
        dsimp only
        rw [heq]
        refine ⟨moved + 1, e', rfl, fun id hid => ?_⟩
        rw [List.map_cons, List.mem_cons, not_or] at hid
        rw [hkeep id hid.2, hother id (Ne.symm hid.1)]
      · obtain ⟨moved, e', heq, hkeep⟩ := ih (count + 1) hn.2 hrest
        refine ⟨moved, e', heq, fun id hid => hkeep id fun hm => hid ?_⟩
        exact List.mem_cons_of_mem _ hm

/-- Ops with distinct movable feeds are balanced, or the load of one of them does not fit a word. -/
theorem balanceOps_cases {ops : List (List Feed)} (s : LoopbackStats)
    (hn : (ops.flatten.map (·.pipe)).Nodup) (h : e.Movable (ops.flatten.map (·.pipe))) :
    (∃ s' e', balanceOps ops s e = (.ok s', e') ∧ ∀ feeds ∈ ops, e.LoadFits feeds) ∨
      (balanceOps ops s e).1 = fault .overflow ∧ ∃ feeds ∈ ops, ¬ e.LoadFits feeds := by
  induction ops generalizing s e with
  | nil => exact .inl ⟨s, e, rfl, List.forall_mem_nil _⟩
  | cons feeds ops ih =>
    rw [List.flatten_cons, List.map_append] at hn h
    rw [List.nodup_append] at hn
    obtain ⟨hhere, hthere, hdisjoint⟩ := hn
    have hload := h.mono (List.subset_append_left ..)
    have hrest := h.mono (List.subset_append_right ..)
    by_cases hfits : e.LoadFits feeds
    · have hnext {s₁ : LoopbackStats} {e₁ : Epoch}
          (hkeep : ∀ id ∈ ops.flatten.map (·.pipe), e₁.pipes.get? id = e.pipes.get? id) :
          (∃ s' e', balanceOps ops s₁ e₁ = (.ok s', e') ∧ ∀ fs ∈ feeds :: ops, e.LoadFits fs) ∨
            (balanceOps ops s₁ e₁).1 = fault .overflow ∧ ∃ fs ∈ feeds :: ops, ¬ e.LoadFits fs := by
        have hsame : ∀ fs ∈ ops, e₁.LoadFits fs ↔ e.LoadFits fs :=
          fun fs hfs => Epoch.loadFits_congr (Epoch.route?_of_kept hkeep hfs)
        rcases ih s₁ hthere (hrest.congr hkeep) with ⟨s', e', heq, hall⟩ | ⟨heq, fs, hfs, hover⟩
        · refine .inl ⟨s', e', heq, List.forall_mem_cons.2 ⟨hfits, fun fs hfs => ?_⟩⟩
          exact (hsame fs hfs).1 (hall fs hfs)
        · exact .inr ⟨heq, fs, List.mem_cons_of_mem _ hfs, mt (hsame fs hfs).2 hover⟩
      rw [balanceOps, loadOf_excess hload.stored hfits]
      cases e.excess feeds with
      | none => exact hnext fun _ _ => rfl
      | some excess =>
        obtain ⟨off, count⟩ := excess
        have hsub : ((feeds.filter (·.switchable)).map (·.pipe)).Sublist (feeds.map (·.pipe)) :=
          List.filter_sublist.map _
        obtain ⟨moved, e₁, heq, hkeep⟩ :=
          exists_flip off count (hhere.sublist hsub) (hload.mono hsub.subset)
        dsimp only
        rw [heq]
        refine hnext fun id hid => hkeep id fun hm => ?_
        exact hdisjoint id (hsub.subset hm) id hid rfl
    · refine .inr ⟨?_, feeds, List.mem_cons_self .., hfits⟩
      rw [balanceOps, loadOf_excess_fault hload.stored hfits]
      rfl

/-! ## Recorded pipes -/

/-- The pipes recorded for the inputs of all ops. -/
def pipes (t : Balancer) : List PipeId := t.ops.values.flatMap (·.map (·.2.pipe))

/-- What is balanced are the feeds of ops. -/
theorem exists_op_of_mem {t : Balancer} {feeds : List Feed}
    (hfeeds : feeds ∈ t.ops.values.map (·.map (·.2))) :
    ∃ op, feeds = t.feeds op := by
  obtain ⟨l, hl, rfl⟩ := List.mem_map.1 hfeeds
  obtain ⟨op, hop⟩ := Table.mem_values.1 hl
  exact ⟨op, by rw [feeds, Table.get?_eq_some_iff.2 hop]; rfl⟩

/-- The feeds of an op are balanced, if there are any. -/
theorem feeds_mem (t : Balancer) (op : String) :
    t.feeds op = [] ∨ t.feeds op ∈ t.ops.values.map (·.map (·.2)) := by
  rw [feeds]
  cases hop : t.ops.get? op with
  | none => exact Or.inl rfl
  | some l => exact Or.inr (List.mem_map.2 ⟨l, Table.mem_values_of_get? hop, rfl⟩)

/-- The recorded pipes are those of the feeds that are balanced. -/
theorem flatten_pipes (t : Balancer) :
    (t.ops.values.map (·.map (·.2))).flatten.map (·.pipe) = t.pipes := by
  simp [pipes, List.flatMap_def, List.map_flatten, Function.comp_def]

private theorem put_pipes (i : UInt64) (f : Feed) (l : List (UInt64 × Feed)) :
    ((Feed.put i f l).map (·.2.pipe)).Subperm (f.pipe :: l.map (·.2.pipe)) := by
  induction l with
  | nil => exact .refl _
  | cons g l ih =>
    obtain ⟨j, g⟩ := g
    rw [Feed.put]
    split
    · exact .refl _
    · split
      · simp only [List.map_cons]
        exact (List.subperm_cons _ |>.2 ih).trans (List.Perm.swap ..).subperm
      · simp only [List.map_cons]
        exact List.subperm_cons _ |>.2 .cons_self

/-- Writing under a key exchanges what is listed there. -/
private theorem flatMap_put {κ α β : Type} [DecidableEq κ] (g : α → List β) (k : κ) (a : α)
    (l : List (κ × α)) :
    ((Table.put k a l).flatMap (g ·.2) ++ ((Table.find? k l).map g).getD []).Perm
      (l.flatMap (g ·.2) ++ g a) := by
  induction l with
  | nil => simp [Table.put, Table.find?]
  | cons x l ih =>
    obtain ⟨j, b⟩ := x
    by_cases hj : j = k
    · simp only [Table.put, Table.find?, hj, ite_true, List.flatMap_cons, Option.map_some,
        Option.getD_some, List.append_assoc]
      exact List.perm_append_comm.trans ((List.perm_append_comm.append_right _).trans
        (.of_eq (List.append_assoc ..)))
    · simp only [Table.put, Table.find?, hj, ite_false, List.flatMap_cons, List.append_assoc]
      exact ih.append_left _

/-- A record adds its pipe, and at most replaces another one. What the op had before is added on
both sides, so that the exchange is a permutation. -/
theorem record_pipes (t : Balancer) (op : String) (input : UInt64) (pipe : PipeId)
    (loopback multicast : Bool) :
    (t.record op input pipe loopback multicast).pipes.Subperm (pipe :: t.pipes) := by
  let old := (t.ops.get? op).getD []
  let new := Feed.put input ⟨pipe, loopback, loopback && !multicast⟩ old
  have hexchange : ((t.record op input pipe loopback multicast).pipes ++ old.map (·.2.pipe)).Perm
      (t.pipes ++ new.map (·.2.pipe)) := by
    have hput := flatMap_put (·.map (·.2.pipe)) op new t.ops.toList
    have hold : ((Table.find? op t.ops.toList).map (·.map (·.2.pipe))).getD [] =
        old.map (·.2.pipe) := by
      change _ = ((Table.find? op t.ops.toList).getD []).map (·.2.pipe)
      cases Table.find? op t.ops.toList <;> rfl
    rw [hold] at hput
    simpa only [pipes, record, Table.values, Table.insert, List.flatMap_map] using hput
  have hnew : (new.map (·.2.pipe)).Subperm (pipe :: old.map (·.2.pipe)) := put_pipes ..
  rw [← List.subperm_append_right (old.map (·.2.pipe))]
  refine hexchange.subperm.trans (((List.subperm_append_left t.pipes).2 hnew).trans ?_)
  exact List.perm_middle.subperm

/-- A fold that adds at most one pipe for each decision. -/
theorem foldl_pipes {f : Balancer → Decision → Balancer}
    (hf : ∀ t d, (f t d).pipes.Subperm (d.pipe :: t.pipes)) (ds : List Decision) (t : Balancer) :
    (ds.foldl f t).pipes.Subperm (ds.map (·.pipe) ++ t.pipes) := by
  induction ds generalizing t with
  | nil => exact .refl _
  | cons d ds ih =>
    rw [List.foldl_cons, List.map_cons, List.cons_append]
    refine (ih (f t d)).trans ?_
    exact ((List.subperm_append_left _).2 (hf t d)).trans List.perm_middle.subperm

/-- Decisions are recorded at most once each. -/
theorem tally_pipes (ds : List Decision) : (Epoch.tally ds).pipes.Subperm (ds.map (·.pipe)) := by
  rw [Epoch.tally, ← List.append_nil (ds.map (·.pipe))]
  apply foldl_pipes
  intro t d
  split
  · exact record_pipes ..
  · exact .cons_self

/-- Different movable pipes are balanced, or the load of an op does not fit a word. -/
theorem balance_cases {t : Balancer} (hn : t.pipes.Nodup) (h : e.Movable t.pipes) :
    (∃ s e', t.balance e = (.ok s, e') ∧ ∀ op, e.LoadFits (t.feeds op)) ∨
      (t.balance e).1 = fault .overflow ∧ ∃ op n, 2 ^ 32 ≤ e.loadOn (t.feeds op) n := by
  rw [← flatten_pipes] at hn h
  rcases balanceOps_cases {} hn h with ⟨s, e', heq, hfits⟩ | ⟨hfault, feeds, hfeeds, hover⟩
  · refine .inl ⟨s, e', heq, fun op => ?_⟩
    rcases t.feeds_mem op with hnil | hmem
    · rw [hnil]
      exact e.loadFits_of_length (by decide)
    · exact hfits _ hmem
  · obtain ⟨op, rfl⟩ := exists_op_of_mem hfeeds
    obtain ⟨n, hn⟩ := not_forall.1 hover
    exact .inr ⟨hfault, op, n, Nat.not_lt.1 hn⟩

/-- A tally of decisions for different pipes lists different pipes. -/
theorem tally_pipes_nodup {ds : List Decision} (hn : (ds.map (·.pipe)).Nodup) :
    (Epoch.tally ds).pipes.Nodup := by
  obtain ⟨l, hperm, hsublist⟩ := tally_pipes ds
  exact hperm.nodup_iff.1 (hn.sublist hsublist)

end Balancer

end TorusRouting
