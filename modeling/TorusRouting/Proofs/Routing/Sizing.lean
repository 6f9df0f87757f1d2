import TorusRouting.Proofs.Relay.Frame
import TorusRouting.Proofs.Routing.Frame

/-!
# Routing does not look at sizes

Classification and selection read the kind, the place, the queue and the owner of a buffer, but not
its allocation. So routing decides the same on an epoch with resized buffers, writes the same
routings, and fails in the same way. Growth keeps a valid epoch valid, so the check in front of
routing does not tell the two apart either.
-/

namespace TorusRouting

variable {α : Type} {e e' : Epoch} {buffers : Table BufferId Buffer} {config : Config}
  {ids : List BufferId}

namespace Epoch

/-- The epoch with other buffers. -/
def withBuffers (e : Epoch) (buffers : Table BufferId Buffer) : Epoch := { e with buffers }

/-- The buffers of the epoch under the same keys, but for their allocations. -/
structure Resizes (e : Epoch) (buffers : Table BufferId Buffer) : Prop where
  keys : buffers.keys = e.buffers.keys
  buffer : ∀ id b, e.buffers.get? id = some b →
    ∃ tiles, buffers.get? id = some { b with allocated := tiles }

/-! ## Decisions -/

namespace Resizes

private theorem get?_eq_none (h : e.Resizes buffers) {id : BufferId}
    (hid : e.buffers.get? id = none) :
    buffers.get? id = none := by
  rw [Option.eq_none_iff_forall_ne_some]
  intro b' hb'
  obtain ⟨b, hb⟩ := Table.exists_get?_of_keys_eq h.keys hb'
  rw [hid] at hb
  cases hb

/-- Computations that agree up to the allocation of the buffer they look up agree after resizing,
also where the buffer is missing. -/
theorem pipeBuffer_bind (h : e.Resizes buffers) (p : Pipe) (id : BufferId)
    {f f' : Buffer → Outcome α} (hf : ∀ b tiles, f' { b with allocated := tiles } = f b) :
    ((e.withBuffers buffers).pipeBuffer p id >>= f') = (e.pipeBuffer p id >>= f) := by
  simp only [pipeBuffer, withBuffers]
  cases hb : e.buffers.get? id with
  | none =>
    rw [h.get?_eq_none hb]
    rfl
  | some b =>
    obtain ⟨tiles, ht⟩ := h.buffer id b hb
    rw [ht]
    exact hf b tiles

private theorem inputsOn_eq (h : e.Resizes buffers) (p : Pipe) (c : Core) (ids : List BufferId) :
    (e.withBuffers buffers).inputsOn p c ids = e.inputsOn p c ids := by
  induction ids with
  | nil => rfl
  | cons id ids ih =>
    rw [inputsOn, inputsOn, ih]
    exact h.pipeBuffer_bind p id fun _ _ => rfl

private theorem inputsShareCore_eq (h : e.Resizes buffers) (p : Pipe) :
    (e.withBuffers buffers).inputsShareCore p = e.inputsShareCore p := by
  unfold inputsShareCore
  split
  · rfl
  · exact h.pipeBuffer_bind p _ fun b _ => h.inputsOn_eq p b.core _

private theorem classifyIntoOp_eq (h : e.Resizes buffers) (oracle : Oracle) (p : Pipe)
    (producer : Option Op) (src dst : Buffer) (base : PipeClass) :
    (e.withBuffers buffers).classifyIntoOp oracle p producer src dst base =
      e.classifyIntoOp oracle p producer src dst base := by
  rw [classifyIntoOp, classifyIntoOp, h.inputsShareCore_eq]
  rfl

/-- Classification does not look at allocations. -/
theorem classify_eq (h : e.Resizes buffers) (oracle : Oracle) (p : Pipe) :
    (e.withBuffers buffers).classify oracle p = e.classify oracle p := by
  unfold classify
  simp only [h.classifyIntoOp_eq]
  split
  · split
    · split
      · rfl
      · apply h.pipeBuffer_bind
        intro src _
        apply h.pipeBuffer_bind
        intro dst _
        rfl
    · rfl
  · rfl

private theorem unfitInputs_eq (h : e.Resizes buffers) (p : Pipe) (box : Box) (n : Network)
    (dst : Coord)
    (ids : List BufferId) :
    (e.withBuffers buffers).unfitInputs p box n dst ids = e.unfitInputs p box n dst ids := by
  induction ids with
  | nil => rfl
  | cons id ids ih =>
    rw [unfitInputs, unfitInputs, ih]
    exact h.pipeBuffer_bind p id fun _ _ => rfl

private theorem unfitPaths_eq (h : e.Resizes buffers) (p : Pipe) (multicast : Bool) (box : Box)
    (n : Network) (steps : List (List BufferId)) (cores : List Core) :
    (e.withBuffers buffers).unfitPaths p multicast box n steps cores =
      e.unfitPaths p multicast box n steps cores := by
  induction steps generalizing cores with
  | nil => rfl
  | cons outs steps ih =>
    simp only [unfitPaths, ih, h.unfitInputs_eq]
    split
    · exact h.pipeBuffer_bind p _ fun _ _ => rfl
    · rfl

/-- The choice between two ops does not look at allocations. -/
theorem opToOp_eq (h : e.Resizes buffers) (p : Pipe) (c : PipeClass) (firstIn firstOut : BufferId)
    (src dst : Coord) :
    (e.withBuffers buffers).opToOp p c firstIn firstOut src dst =
      e.opToOp p c firstIn firstOut src dst := by
  simp only [opToOp, h.unfitPaths_eq]
  rfl

private theorem selectRoute_eq (h : e.Resizes buffers) (config : Config) (p : Pipe) (c : PipeClass)
    (firstIn firstOut : BufferId) (src dst : Core) :
    (e.withBuffers buffers).selectRoute config p c firstIn firstOut src dst =
      e.selectRoute config p c firstIn firstOut src dst := by
  simp only [selectRoute, h.opToOp_eq]
  rfl

/-- The choice of a network does not look at allocations. -/
theorem select_eq (h : e.Resizes buffers) (config : Config) (p : Pipe) (c : PipeClass) :
    (e.withBuffers buffers).select config p c = e.select config p c := by
  simp only [select, h.selectRoute_eq]
  split
  · split
    · apply h.pipeBuffer_bind
      intro src _
      apply h.pipeBuffer_bind
      intro dst _
      rfl
    · rfl
  · rfl

/-- Resizing changes no decision. -/
theorem decisions_eq (h : e.Resizes buffers) (config : Config) (oracle : Oracle) :
    (e.withBuffers buffers).decisions config oracle = e.decisions config oracle := by
  have hdecide : (e.withBuffers buffers).decidePipe config oracle = e.decidePipe config oracle := by
    funext p
    rw [decidePipe, decidePipe, h.classify_eq]
    simp only [h.select_eq]
  rw [decisions, decisions, hdecide]
  rfl

private theorem checkPipe_eq (h : e.Resizes buffers) (p : Pipe) :
    (e.withBuffers buffers).checkPipe p = e.checkPipe p := by
  have hstored : (fun id => (e.withBuffers buffers).pipeBuffer p id >>= fun _ => pure ()) =
      (fun id => (e.pipeBuffer p id >>= fun _ => pure () : Outcome Unit)) := by
    funext id
    exact h.pipeBuffer_bind p id fun _ _ => rfl
  simp only [checkPipe, hstored]
  rfl

end Resizes

/-! ## Writes -/

private theorem assign_withBuffers (e : Epoch) (buffers : Table BufferId Buffer) (id : PipeId)
    (r : Routing) :
    (e.withBuffers buffers).assign id r = (e.assign id r).map (·.withBuffers buffers) := by
  have hpipe : (e.withBuffers buffers).pipe id = e.pipe id := rfl
  rw [assign, assign, hpipe]
  cases e.pipe id with
  | error f => rfl
  | ok p =>
    change (p.assign r >>= _) = (p.assign r >>= _).map _
    cases p.assign r <;> rfl

private theorem assignAll_withBuffers (buffers : Table BufferId Buffer) (ds : List Decision)
    (e : Epoch) :
    assignAll ds (e.withBuffers buffers) =
      ((assignAll ds e).1, (assignAll ds e).2.withBuffers buffers) := by
  induction ds generalizing e with
  | nil => rfl
  | cons d ds ih =>
    rw [assignAll, assignAll, assign_withBuffers]
    cases e.assign d.pipe d.routing with
    | error f => rfl
    | ok e₁ => exact ih e₁

end Epoch

namespace Balancer

/-- The load does not depend on the buffers. -/
theorem loadOf_withBuffers (e : Epoch) (buffers : Table BufferId Buffer) (feeds : List Feed) :
    loadOf (e.withBuffers buffers) feeds = loadOf e feeds := rfl

/-- Which feeds are moved does not depend on the buffers. -/
theorem flip_withBuffers (buffers : Table BufferId Buffer) (off : Network) (count : Nat)
    (feeds : List Feed) (e : Epoch) :
    flip off count feeds (e.withBuffers buffers) =
      ((flip off count feeds e).1, (flip off count feeds e).2.withBuffers buffers) := by
  induction feeds generalizing count e with
  | nil => cases count <;> rfl
  | cons f feeds ih =>
    cases count with
    | zero => rfl
    | succ count =>
      have hpipe : (e.withBuffers buffers).pipe f.pipe = e.pipe f.pipe := rfl
      rw [flip, flip, hpipe]
      split
      · rfl
      · split
        · split
          · rfl
          · rename_i p' _
            have hset : (e.withBuffers buffers).setPipe f.pipe p' =
                (e.setPipe f.pipe p').withBuffers buffers := rfl
            rw [hset, ih]
        · exact ih (count + 1) e

private theorem balanceOps_withBuffers (buffers : Table BufferId Buffer) (ops : List (List Feed))
    (s : LoopbackStats) (e : Epoch) :
    balanceOps ops s (e.withBuffers buffers) =
      ((balanceOps ops s e).1, (balanceOps ops s e).2.withBuffers buffers) := by
  induction ops generalizing s e with
  | nil => rfl
  | cons feeds ops ih =>
    rw [balanceOps, balanceOps, loadOf_withBuffers]
    split
    · rfl
    · exact ih s e
    · rename_i off count _
      rw [flip_withBuffers]
      rcases flip off count (feeds.filter (·.switchable)) e with ⟨_ | moved, e₁⟩
      · rfl
      · exact ih _ e₁

end Balancer

namespace Epoch

/-- Routing a valid epoch with resized buffers gives the same counts or the same failure, and
writes the same pipes. -/
theorem Resizes.routeValid_eq (h : e.Resizes buffers) (config : Config) (oracle : Oracle) :
    (e.withBuffers buffers).routeValid config oracle =
      ((e.routeValid config oracle).1, (e.routeValid config oracle).2.withBuffers buffers) := by
  rw [routeValid, routeValid, h.decisions_eq]
  cases e.decisions config oracle with
  | error f => rfl
  | ok ds =>
    dsimp only
    rw [assignAll_withBuffers]
    rcases assignAll ds e with ⟨_ | _, e₁⟩
    · rfl
    · dsimp only
      rw [Balancer.balance, Balancer.balanceOps_withBuffers, ← Balancer.balance]
      rcases (tally ds).balance e₁ with ⟨_ | lb, e₂⟩ <;> rfl

end Epoch

/-! ## Growth -/

/-- Growth keeps a sound buffer sound. -/
theorem Buffer.GrowsTo.check {b b' : Buffer} (h : b.GrowsTo config b') (hb : b.check = .ok ()) :
    b'.check = .ok () := by
  obtain ⟨hgranule, htile, hl1⟩ := check_eq_ok_iff.1 hb
  rw [h.same, check_eq_ok_iff]
  refine ⟨hgranule, htile, fun hu => ?_⟩
  obtain ⟨hpos, hdvd⟩ := hl1 hu
  refine ⟨hpos.trans_le h.le, ?_⟩
  rcases h.multiple hb hu with heq | ⟨_, k, _, hk, _⟩
  · exact heq ▸ hdvd
  · exact hk ▸ Nat.dvd_mul_left ..

namespace Epoch.Grows

/-- Growth changes an epoch in its buffers only. -/
theorem eq_withBuffers (h : e.Grows config ids e') : e' = e.withBuffers e'.buffers := by
  obtain ⟨index, device, ops, buffers', pipes⟩ := e'
  obtain ⟨rfl, rfl, rfl, rfl, _, _, _⟩ := h
  rfl

private theorem resizes (h : e.Grows config ids e') : e.Resizes e'.buffers where
  keys := h.keys
  buffer := by
    intro id b hb
    obtain ⟨b', hb', hgrow⟩ := h.buffer id b hb
    exact ⟨b'.allocated, hgrow.same ▸ hb'⟩

/-- A buffer that was grown still passes the checks. -/
theorem checkBuffer (h : e.Grows config ids e')
    (hall : ∀ b ∈ e.buffers.values, e.checkBuffer b = .ok ()) :
    ∀ b ∈ e'.buffers.values, e.checkBuffer b = .ok () := by
  intro b' hb'
  obtain ⟨id, hm⟩ := Table.mem_values.1 hb'
  have hget : e'.buffers.get? id = some b' := Table.get?_eq_some_iff.2 hm
  obtain ⟨b, hb⟩ := Table.exists_get?_of_keys_eq h.keys hget
  obtain ⟨b'', hb'', hgrow⟩ := h.buffer id b hb
  cases hget.symm.trans hb''
  obtain ⟨_, hcheck, hplace⟩ := bind_eq_ok.1 (hall b (Table.mem_values_of_get? hb))
  refine bind_eq_ok.2 ⟨(), hgrow.check hcheck, ?_⟩
  rw [hgrow.same]
  exact hplace

/-- Growth keeps a valid epoch valid. -/
theorem validate (h : e.Grows config ids e') (hvalid : e.validate = .ok ()) :
    e'.validate = .ok () := by
  obtain ⟨_, hops, hrest⟩ := bind_eq_ok.1 hvalid
  obtain ⟨_, hbuffers, hpipes⟩ := bind_eq_ok.1 hrest
  rw [h.eq_withBuffers]
  refine bind_eq_ok.2 ⟨(), hops, bind_eq_ok.2 ⟨(), ?_, ?_⟩⟩
  · exact forM_eq_ok.2 (h.checkBuffer (forM_eq_ok.1 hbuffers))
  · refine forM_eq_ok.2 fun p hp => ?_
    rw [h.resizes.checkPipe_eq]
    exact forM_eq_ok.1 hpipes p hp

/-- Routing a grown valid epoch gives the same counts or the same failure, and writes the same
pipes. -/
theorem routePipes_eq (h : e.Grows config ids e') (hvalid : e.validate = .ok ())
    (config' : Config) (oracle : Oracle) :
    e'.routePipes config' oracle = ((e.routePipes config' oracle).1,
      (e.routePipes config' oracle).2.withBuffers e'.buffers) := by
  have heq := h.resizes.routeValid_eq config' oracle
  rw [← h.eq_withBuffers] at heq
  rw [routePipes, routePipes, hvalid, h.validate hvalid]
  exact heq

end Epoch.Grows

end TorusRouting
