import Mathlib.Data.UInt
import TorusRouting.File.Format
import TorusRouting.Proofs.File.RoundTrip
import TorusRouting.Proofs.Routing.AllOrNothing
import TorusRouting.Proofs.Routing.BestEffort
import TorusRouting.Proofs.Routing.Tally

/-!
# Where the pass can fault

Whatever the keys and values of an epoch, the pass reports what is wrong with it as an error; no
word overflows, nothing is divided by zero and no entry is missing. There are four exceptions.
Growth looks up relay buffers by their own ids, so they must be stored under these. Three things are
counted in words: the paths of a pipe, the feeds of an op with their loopbacks, and the bytes in a
report that is logged.
-/

namespace TorusRouting

variable {α β : Type}

/-- The outcome is a value or an error, but no fault. -/
def Safe (x : Outcome α) : Prop := ∀ f, x ≠ fault f

namespace Safe

/-- A result is no fault. -/
theorem ok (a : α) : Safe (.ok a : Outcome α) := nofun

/-- An error is no fault. -/
theorem reject (e : RouteError) : Safe (reject e : Outcome α) := nofun

private theorem of_exists {x : Outcome α} (h : ∃ a, x = .ok a) : Safe x := by
  obtain ⟨a, rfl⟩ := h
  exact ok a

/-- A failure that is passed on. -/
theorem error {x : Outcome α} (hx : Safe x) {f : Failure} (h : x = .error f) :
    Safe (.error f : Outcome β) := by
  intro y hy
  cases hy
  exact hx y h

/-- Two steps are safe if the second is safe after every result of the first. -/
theorem bind {x : Outcome α} {f : α → Outcome β} (hx : Safe x) (hf : ∀ a, x = .ok a → Safe (f a)) :
    Safe (x >>= f) := by
  cases h : x with
  | error y => exact hx.error h
  | ok a => exact hf a h

/-- What is done with a result causes no fault. -/
theorem map {x : Outcome α} (hx : Safe x) (f : α → β) : Safe (x.map f) := by
  cases h : x with
  | error y => exact hx.error h
  | ok a => exact ok (f a)

/-- A traversal is safe if it is safe on every element. -/
theorem mapM {f : α → Outcome β} {l : List α} (h : ∀ a ∈ l, Safe (f a)) : Safe (l.mapM f) := by
  induction l with
  | nil => exact ok []
  | cons a l ih =>
    rw [List.forall_mem_cons] at h
    rw [List.mapM_cons]
    exact h.1.bind fun b _ => (ih h.2).bind fun m _ => ok _

/-- A check of a list is safe if it is safe on every element. -/
theorem forM {f : α → Outcome Unit} {l : List α} (h : ∀ a ∈ l, Safe (f a)) : Safe (l.forM f) := by
  induction l with
  | nil => exact ok ()
  | cons a l ih =>
    rw [List.forall_mem_cons] at h
    exact h.1.bind fun _ _ => ih h.2

end Safe

/-! ## Lookups and checks -/

private theorem Buffer.check_safe (b : Buffer) : Safe b.check := by
  unfold check
  split
  · exact .reject _
  · split
    · exact .reject _
    · split
      · exact .reject _
      · exact .ok _

namespace Epoch

variable {e : Epoch} {config : Config} {p : Pipe} {c : PipeClass}

private theorem op_safe (e : Epoch) (name : String) : Safe (e.op name) := by
  unfold op
  split
  · exact .ok _
  · exact .reject _

private theorem pipe_safe (e : Epoch) (id : PipeId) : Safe (e.pipe id) := by
  unfold pipe
  split
  · exact .ok _
  · exact .reject _

private theorem pipeBuffer_safe (e : Epoch) (p : Pipe) (id : BufferId) :
    Safe (e.pipeBuffer p id) := by
  unfold pipeBuffer
  split
  · exact .ok _
  · exact .reject _

/-- Validation finds errors, but never faults. -/
theorem validate_safe (e : Epoch) : Safe e.validate := by
  unfold validate
  refine .bind (.forM fun op _ => ?_) fun _ _ => .bind (.forM fun b _ => ?_) fun _ _ =>
    .forM fun p _ => ?_
  · unfold checkOp
    split
    · exact .ok _
    · exact .reject _
  · unfold checkBuffer
    refine (Buffer.check_safe b).bind fun _ _ => ?_
    split
    · exact .reject _
    · exact .ok _
  · have hstored : Safe ((p.inputs ++ p.allOutputs).forM fun id => do
        let _ ← e.pipeBuffer p id
        pure ()) := .forM fun id _ => (e.pipeBuffer_safe p id).bind fun _ _ => .ok _
    unfold checkPipe
    by_cases hempty : (p.inputs.isEmpty || p.outputs.isEmpty || p.hasIdleStep) = true
    · rw [if_pos hempty]
      exact .reject _
    · rw [if_neg hempty]
      refine hstored.bind fun _ _ => ?_
      split
      · exact .reject _
      · exact .ok _

/-! ## Decisions -/

section Decisions

variable (hmesh : ∀ op ∈ e.ops.values, op.OnMesh e.device)

include hmesh

/-- A connected pipe is classified, or refused for a flaw of its own. -/
theorem classify_safe (hp : p.Connected e) : Safe (e.classify .adjacent p) := by
  intro f hf
  rcases classify_flaw hp hf with hflaw | ⟨a, ha, b, hb, ask, hfail⟩
  · cases hflaw
  · obtain ⟨answer, hanswer⟩ := Oracle.exists_adjacent (hmesh a ha) (hmesh b hb) ask
    cases hanswer.symm.trans hfail

variable (hd : e.device.gridX.toNat + e.device.gridY.toNat ≤ UInt32.size)

include hd

/-- Between ops, whatever is stored under the names of a class, only the count can fault. -/
theorem opToOp_safe (hp : p.Connected e) (hfew : p.inputs.length * p.timesteps < UInt32.size)
    (firstIn firstOut : BufferId) (src dst : Coord) :
    Safe (e.opToOp p c firstIn firstOut src dst) := by
  unfold opToOp
  split
  · rename_i source _
    refine (e.op_safe source).bind fun producer hproducer => ?_
    split
    · rename_i into _
      refine (e.op_safe into).bind fun consumer hconsumer => ?_
      have hproducer := hmesh producer (Table.mem_values_of_get? (op_eq_ok.1 hproducer))
      have hconsumer := hmesh consumer (Table.mem_values_of_get? (op_eq_ok.1 hconsumer))
      split
      · exact .bind (.of_exists (Device.exists_nearest hd src dst)) fun _ _ => .ok _
      · have hway : Safe (e.device.opRoute p.id producer consumer) := by
          intro f hf
          cases ((Device.opRoute_eq_error_iff hproducer hconsumer hd p.id).1 hf).2
        refine hway.bind fun way _ => ?_
        rcases rate_cases hp c way with hrate | ⟨_, hmany⟩
        · obtain ⟨n, _ | box⟩ := way
          · exact .ok _
          · exact .of_exists hrate
        · omega
    · exact .reject _
  · exact .reject _

/-- A connected pipe gets a routing or an error, if the words can count its paths. -/
theorem select_safe (hp : p.Connected e) (hfew : p.inputs.length * p.timesteps < UInt32.size)
    (config : Config) (c : PipeClass) : Safe (e.select config p c) := by
  obtain ⟨⟨i, src, hi, hsrc⟩, ⟨o, dst, ho, hdst⟩⟩ := hp.exists_first
  obtain ⟨firstIn, firstOut, hselect⟩ := select_eq ⟨⟨i, hi, hsrc⟩, ⟨o, ho, hdst⟩⟩ config c
  rw [hselect]
  refine .bind ?_ fun _ _ => .ok _
  by_cases hops : c.BetweenOps
  · rw [selectRoute_betweenOps hops]
    exact .bind (opToOp_safe hmesh hd hp hfew _ _ _ _) fun _ _ => .ok _
  · exact .of_exists (exists_selectRoute hd hops ..)

end Decisions

/-- On a valid epoch every pipe is decided or refused. -/
theorem decisions_safe (hvalid : e.validate = .ok ())
    (hd : e.device.gridX.toNat + e.device.gridY.toNat ≤ UInt32.size)
    (hfew : ∀ p ∈ e.pipes.values, p.inputs.length * p.timesteps < UInt32.size)
    (config : Config) : Safe (e.decisions config .adjacent) := by
  have hmesh := onMesh_of_validate hvalid
  refine .mapM fun p hp => ?_
  have hconnected := connected_of_validate hvalid p hp
  refine (classify_safe hmesh hconnected).bind fun c _ => ?_
  exact (select_safe hmesh hd hconnected (hfew p hp) config c).bind fun _ _ => .ok _

/-! ## Writes -/

private theorem assign_safe (e : Epoch) (id : PipeId) (r : Routing) : Safe (e.assign id r) := by
  refine (e.pipe_safe id).bind fun p _ => .bind ?_ fun _ _ => .ok _
  unfold Pipe.assign
  split
  · exact .reject _
  · exact .ok _

private theorem assignAll_safe (ds : List Decision) (e : Epoch) : Safe (assignAll ds e).1 := by
  induction ds generalizing e with
  | nil => exact .ok ()
  | cons d ds ih =>
    rw [assignAll]
    split
    · rename_i h
      exact (e.assign_safe d.pipe d.routing).error h
    · rename_i e₁ _
      exact ih e₁

end Epoch

private theorem Pipe.rebalance_safe (p : Pipe) (n : Network) : Safe (p.rebalance n) := by
  unfold rebalance
  split
  · exact .reject _
  · split
    · exact .reject _
    · split
      · exact .reject _
      · exact .ok _

namespace Balancer

/-- Fewer than `2 ^ 31` feeds are counted, or one of them is not stored. -/
theorem loadOf_excess_safe (e : Epoch) {feeds : List Feed} (h : feeds.length < 2 ^ 31) :
    Safe (loadOf e feeds >>= Load.excess) := by
  have hfits := e.loadFits_of_length h
  rcases foldlM_countFeed_cases {} with ⟨l, hl, hcounts⟩ | ⟨_, hover⟩ | ⟨x, hl, _⟩
  · exact .of_exists ⟨_, bind_eq_ok.2 ⟨l, hl, hcounts.shows.excess_eq hfits⟩⟩
  · exact absurd hfits hover.not_fits
  · rw [loadOf, hl]
    exact .reject x

private theorem flip_safe (off : Network) (count : Nat) (feeds : List Feed) (e : Epoch) :
    Safe (flip off count feeds e).1 := by
  induction feeds generalizing count e with
  | nil => cases count <;> exact .ok 0
  | cons f feeds ih =>
    cases count with
    | zero => exact .ok 0
    | succ count =>
      rw [flip]
      split
      · rename_i h
        exact (e.pipe_safe f.pipe).error h
      · rename_i p _
        split
        · split
          · rename_i h
            exact (p.rebalance_safe off.other).error h
          · exact (ih count _).map (· + 1)
        · exact ih (count + 1) e

/-- Balancing is safe if the words can count the inputs of every op. -/
theorem balanceOps_safe {ops : List (List Feed)} (h : ∀ feeds ∈ ops, feeds.length < 2 ^ 31)
    (s : LoopbackStats) (e : Epoch) : Safe (balanceOps ops s e).1 := by
  induction ops generalizing s e with
  | nil => exact .ok s
  | cons feeds ops ih =>
    rw [List.forall_mem_cons] at h
    have hload := loadOf_excess_safe e h.1
    rw [balanceOps]
    split
    · rename_i heq
      exact hload.error heq
    · exact ih h.2 s e
    · rename_i off count _
      have hflip := flip_safe off count (feeds.filter (·.switchable)) e
      split
      · rename_i heq
        exact hflip.error (congrArg Prod.fst heq)
      · exact ih h.2 _ _

end Balancer

namespace Epoch

variable {e : Epoch}

/-- Routing a valid epoch is safe if the words can hold its detours, its paths and its inputs. -/
theorem routeValid_safe (hvalid : e.validate = .ok ())
    (hd : e.device.gridX.toNat + e.device.gridY.toNat ≤ UInt32.size)
    (hfew : ∀ p ∈ e.pipes.values, p.inputs.length * p.timesteps < UInt32.size)
    (hinputs : ∀ op ∈ e.ops.values, (e.inputsOf op.name).length < 2 ^ 31)
    (config : Config) : Safe (e.routeValid config .adjacent).1 := by
  have hdecisions := decisions_safe hvalid hd hfew config
  rw [routeValid]
  split
  · rename_i h
    exact hdecisions.error h
  · rename_i ds hds
    have hassign := assignAll_safe ds e
    split
    · rename_i h
      exact hassign.error (congrArg Prod.fst h)
    · rename_i e₁ _
      have hlength : ∀ feeds ∈ (tally ds).ops.values.map (·.map (·.2)), feeds.length < 2 ^ 31 := by
        intro feeds hfeeds
        obtain ⟨op, rfl⟩ := Balancer.exists_op_of_mem hfeeds
        exact length_feeds_lt hds hinputs op
      have hbalance := Balancer.balanceOps_safe hlength {} e₁
      split
      · rename_i h
        exact hbalance.error (congrArg Prod.fst h)
      · exact .ok _

/-! ## The whole pass -/

private theorem ofEpoch_safe (e : Epoch) : Safe (Ledger.ofEpoch e) := by
  unfold Ledger.ofEpoch
  dsimp only
  split
  · exact .reject _
  · exact .ok _

/-- A pass is safe if its routing is, and if the spare L1 fits a word where the report is logged. -/
theorem runValid_safe {config : Config} {logging : Logging} {l : Ledger}
    (hvalid : e.validate = .ok ()) (hl : Ledger.ofEpoch e = .ok l) (hfiled : e.Filed config)
    (hroute : Safe (e.routeValid config .adjacent).1)
    (hspare : logging = .on → e.spareL1 config < UInt64.size) :
    Safe (e.runValid config .adjacent logging l).1 := by
  have hrerouted := routeValid_rerouted e config .adjacent
  rw [runValid]
  split
  · rename_i h
    exact hroute.error (congrArg Prod.fst h)
  · rename_i e₁ h
    rw [h] at hrerouted
    obtain ⟨report, e₂, l', hup, _, hlog⟩ := upsize_fresh hfiled hvalid hl hrerouted
    rw [hup]
    exact .of_exists ⟨_, hlog _ _ logging hspare⟩

/-- Let the relay buffers that may grow be stored under their ids, let no pipe have `2 ^ 32` paths
and no op `2 ^ 31` inputs, and let the spare L1 fit a word if reports are logged. Then the pass over
any epoch ends with a report or with an error. Ops, pipes and other buffers may be stored under any
keys, and all sizes, positions and ids are arbitrary, but for the size of the mesh. -/
theorem run_never_faults {config : Config} {logging : Logging} (hfiled : e.Filed config)
    (hx : e.device.gridX.toNat ≤ 2 ^ 31) (hy : e.device.gridY.toNat ≤ 2 ^ 31)
    (hfew : ∀ p ∈ e.pipes.values, p.inputs.length * p.timesteps < 2 ^ 32)
    (hinputs : ∀ op ∈ e.ops.values, (e.inputsOf op.name).length < 2 ^ 31)
    (hspare : logging = .on → e.spareL1 config < 2 ^ 64) :
    (∃ report, (e.run config .adjacent logging).1 = .ok report) ∨
      ∃ x, (e.run config .adjacent logging).1 = .error (.error x) := by
  have hsafe : Safe (e.run config .adjacent logging).1 := by
    rw [run]
    split
    · rename_i h
      exact e.validate_safe.error h
    · rename_i hvalid
      split
      · rename_i h
        exact e.ofEpoch_safe.error h
      · rename_i l hl
        have hd : e.device.gridX.toNat + e.device.gridY.toNat ≤ UInt32.size := by
          simp only [UInt32.size]
          omega
        exact runValid_safe hvalid hl hfiled (routeValid_safe hvalid hd hfew hinputs config) hspare
  cases hrun : (e.run config .adjacent logging).1 with
  | ok report => exact Or.inl ⟨report, rfl⟩
  | error f =>
    cases f with
    | error x => exact Or.inr ⟨x, rfl⟩
    | fault x => exact absurd hrun (hsafe x)

/-- A pipe under the id of another one. The relay buffers on the core of its output are stored under
their ids. -/
def strayPipe : Epoch where
  index := 0
  device := { gridX := 4, gridY := 4, ethernet := [], l1Bytes := 1024, reservedBytes := 0 }
  ops := .empty
  buffers := .ofList [
    (⟨1⟩, ⟨⟨1⟩, .relay, ⟨0, 0, 0⟩, none, none, 16, 2, 8, 2⟩),
    (⟨2⟩, ⟨⟨2⟩, .relay, ⟨0, 1, 1⟩, none, none, 16, 2, 8, 2⟩),
    (⟨3⟩, ⟨⟨3⟩, .relay, ⟨0, 1, 1⟩, none, none, 16, 2, 8, 2⟩)]
  pipes := .ofList [(⟨11⟩, ⟨⟨10⟩, [⟨1⟩], [[⟨2⟩]], [], none⟩)]

/-- The pass is safe on an epoch whose pipe is stored under another id. -/
theorem run_never_faults_strayPipe :
    strayPipe.Filed {} ∧ ¬ strayPipe.WellKeyed ∧ strayPipe.spareL1 {} < 2 ^ 64 ∧
      ((∃ report, (strayPipe.run {} .adjacent .on).1 = .ok report) ∨
        ∃ x, (strayPipe.run {} .adjacent .on).1 = .error (.error x)) := by
  have hfiled : strayPipe.Filed {} := by
    unfold Filed
    decide
  have hspare : strayPipe.spareL1 {} < 2 ^ 64 := by decide
  exact ⟨hfiled, by decide, hspare,
    run_never_faults hfiled (by decide) (by decide) (by decide) (by decide) fun _ => hspare⟩

/-- Two relay buffers on one core, stored under other ids than their own. -/
def strayRelays : Epoch where
  index := 0
  device := { gridX := 4, gridY := 4, ethernet := [], l1Bytes := 1024, reservedBytes := 0 }
  ops := .empty
  buffers := .ofList [
    (⟨1⟩, ⟨⟨3⟩, .relay, ⟨0, 1, 1⟩, none, none, 16, 2, 8, 2⟩),
    (⟨2⟩, ⟨⟨4⟩, .relay, ⟨0, 1, 1⟩, none, none, 16, 2, 8, 2⟩)]
  pipes := .empty

/-- Relay buffers are to cover any latency. -/
def anyLatency : Config := { minLatencyCycles := 2 ^ 64 - 1 }

/-- Two relay buffers on cores of their own, each of which can gain half of `2 ^ 64` bytes. -/
def roomyCores : Epoch where
  index := 0
  device := { gridX := 2, gridY := 2, ethernet := [], l1Bytes := 2 ^ 64 - 1, reservedBytes := 0 }
  ops := .empty
  buffers := .ofList [
    (⟨1⟩, ⟨⟨1⟩, .relay, ⟨0, 0, 0⟩, none, none, 2 ^ 62, 1, 3, 1⟩),
    (⟨2⟩, ⟨⟨2⟩, .relay, ⟨0, 1, 1⟩, none, none, 2 ^ 62, 1, 3, 1⟩)]
  pipes := .empty

/-! ## Pipes with too many paths -/

/-- The left one of two ops side by side. -/
def leftOp : Op := ⟨"left", 0, 0, 0, 1, 2, false, false, []⟩

/-- The right one of two ops side by side. -/
def rightOp : Op := ⟨"right", 0, 1, 0, 1, 2, false, false, []⟩

/-- A buffer in the lower row of the left op. -/
def lowerLeft : Buffer :=
  ⟨⟨1⟩, .opOutput, ⟨0, 0, 1⟩, none, some (.producer "left"), 16, 1, 8, 2⟩

/-- A buffer in the upper row of the right op. -/
def upperRight : Buffer :=
  ⟨⟨2⟩, .opInput, ⟨0, 1, 0⟩, none, some (.consumer "right" 0), 16, 1, 8, 2⟩

/-- A mesh of four cores with the two ops, and without pipes. -/
def sideBySide : Epoch where
  index := 0
  device := { gridX := 2, gridY := 2, ethernet := [], l1Bytes := 1024, reservedBytes := 0 }
  ops := .ofList [("left", leftOp), ("right", rightOp)]
  buffers := .ofList [(⟨1⟩, lowerLeft), (⟨2⟩, upperRight)]
  pipes := .empty

/-- A pipe that gathers the one buffer `k` times, for each of `m` deliveries to the other. -/
def crowdedPipe (k m : Nat) : Pipe where
  id := ⟨10⟩
  inputs := List.replicate k ⟨1⟩
  outputs := List.replicate m [⟨2⟩]
  cores := []
  routing := none

/-- The two ops side by side, and the pipe between them. -/
def crowded (k m : Nat) : Epoch := { sideBySide with pipes := .ofList [(⟨10⟩, crowdedPipe k m)] }

section crowded

variable {k m : Nat}

private theorem crowded_connected (hk : 0 < k) (hm : 0 < m) :
    (crowdedPipe k m).Connected (crowded k m) where
  inputs := by
    rw [crowdedPipe, ne_eq, List.replicate_eq_nil_iff]
    omega
  outputs := by
    rw [crowdedPipe, ne_eq, List.replicate_eq_nil_iff]
    omega
  busy := by
    intro o ho
    rw [List.eq_of_mem_replicate ho]
    exact nofun
  input := by
    intro id hid
    rw [List.eq_of_mem_replicate hid]
    exact ⟨_, rfl⟩
  output := by
    intro o ho id hid
    rw [List.eq_of_mem_replicate ho] at hid
    rw [List.mem_singleton.1 hid]
    exact ⟨_, rfl⟩

private theorem crowded_valid (hk : 0 < k) (hm : 0 < m) : (crowded k m).validate = .ok () := by
  have hvalid : sideBySide.validate = .ok () := by decide
  obtain ⟨hops, hbuffers, _⟩ := validate_eq_ok.1 hvalid
  refine validate_eq_ok.2 ⟨hops, hbuffers, fun p hp => ?_⟩
  cases List.mem_singleton.1 hp
  exact checkPipe_eq_ok.2 ⟨crowded_connected hk hm, nofun⟩

private theorem crowded_fits (hk : k < UInt64.size) (hm : m < UInt64.size) :
    (crowded k m).Fits := by
  have hfits : sideBySide.Fits := by decide
  refine { hfits with pipes := (by decide : 1 < UInt64.size), pipe := fun entry he => ?_ }
  cases List.mem_singleton.1 he
  refine ⟨?_, ?_, fun step hstep => ?_, (by decide : 0 < UInt64.size)⟩
  · rwa [crowdedPipe, List.length_replicate]
  · rwa [crowdedPipe, List.length_replicate]
  · rw [List.eq_of_mem_replicate hstep]
    decide

/-- The pipe is classed as one between the two ops. -/
theorem crowded_class (hk : 0 < k) (hm : 0 < m) :
    ∃ c, (crowded k m).classify .adjacent (crowdedPipe k m) = .ok c ∧ c.BetweenOps ∧
      (crowded k m).Joins c leftOp rightOp ∧ c.multicast = (crowdedPipe k m).isMulticast := by
  obtain ⟨k, rfl⟩ := Nat.exists_eq_add_one.2 hk
  obtain ⟨m, rfl⟩ := Nat.exists_eq_add_one.2 hm
  have hconnected := crowded_connected hk hm
  obtain ⟨same, hsame⟩ := exists_inputsShareCore hconnected
  have hends : (crowded (k + 1) (m + 1)).Ends (crowdedPipe (k + 1) (m + 1)) lowerLeft upperRight :=
    ⟨⟨⟨1⟩, rfl, rfl⟩, ⟨⟨2⟩, rfl, rfl⟩⟩
  have hdeclared : Declared (crowdedPipe (k + 1) (m + 1)) rightOp 0 := by
    have hfans : ¬ 1 < ((crowdedPipe (k + 1) (m + 1)).outputsAt 0).length := Nat.lt_irrefl 1
    refine ⟨fun h => absurd h hfans, fun o ho => ?_⟩
    rw [List.eq_of_mem_replicate ho]
    exact iff_of_false (Nat.lt_irrefl 1) hfans
  have hconsumer : (crowded (k + 1) (m + 1)).consumerOf upperRight = .ok (rightOp, 0) := rfl
  refine ⟨(crowded (k + 1) (m + 1)).feedClass (crowdedPipe (k + 1) (m + 1)) lowerLeft upperRight
    ((crowded (k + 1) (m + 1)).sourceClass (crowdedPipe (k + 1) (m + 1)) lowerLeft upperRight
      (some leftOp)) rightOp 0 same none,
    ?_, ⟨rfl, rfl, rfl, rfl⟩, ⟨rfl, rfl, rfl, rfl⟩, feedClass_multicast hdeclared⟩
  have hproducer : (crowded (k + 1) (m + 1)).producerOf lowerLeft = .ok (some leftOp) := rfl
  have hlinks : (crowded (k + 1) (m + 1)).device.hasEthernet = false := rfl
  rw [classify_eq hends hconnected.hasIdleStep, if_neg (by simp [isEthernetPipe, hlinks])]
  refine bind_eq_ok.2 ⟨_, hproducer, ?_⟩
  change (crowded (k + 1) (m + 1)).classifyIntoOp .adjacent _ (some leftOp) _ _ _ = _
  rw [classifyIntoOp_declared hconsumer hdeclared, hsame]
  rfl

private theorem crowded_source {i : Nat} (hi : i < k) :
    (crowded k m).sourceCore? (crowdedPipe k m) i = some lowerLeft.core := by
  have hin : (crowdedPipe k m).inputs[i]? = some ⟨1⟩ := List.getElem?_replicate_of_lt hi
  rw [sourceCore?, hin]
  rfl

private theorem crowded_checked {t : Nat} (ht : t < m) :
    (crowded k m).checkedCore? (crowdedPipe k m) t = some upperRight.core := by
  have hout : (crowdedPipe k m).outputs[t]? = some [⟨2⟩] := List.getElem?_replicate_of_lt ht
  have hcast : (crowdedPipe k m).isMulticast = false := by
    rw [Pipe.isMulticast, List.any_eq_false]
    intro o ho
    rw [List.eq_of_mem_replicate ho]
    decide
  rw [checkedCore?, Pipe.outputsAt, hout, hcast]
  rfl

private theorem crowded_leads (k m : Nat) :
    (crowded k m).Leads (crowdedPipe k m) leftOp rightOp where
  source := by
    intro i hi core hcore
    rw [crowdedPipe, List.length_replicate] at hi
    cases (crowded_source hi).symm.trans hcore
    decide
  checked := by
    intro t ht core hcore
    rw [Pipe.timesteps, crowdedPipe, List.length_replicate] at ht
    cases (crowded_checked ht).symm.trans hcore
    decide

/-- Every path runs against the network. -/
theorem crowded_pathsBehind (k m : Nat) :
    ((crowded k m).pathsBehind (crowdedPipe k m) .noc0 .y).card = m * k := by
  have hall : (crowded k m).pathsBehind (crowdedPipe k m) .noc0 .y =
      Finset.range m ×ˢ Finset.range k := by
    rw [pathsBehind, paths, Pipe.timesteps, crowdedPipe, List.length_replicate,
      List.length_replicate, Finset.filter_eq_self]
    intro q hq
    rw [Finset.mem_product, Finset.mem_range, Finset.mem_range] at hq
    exact ⟨_, crowded_source hq.2, _, crowded_checked hq.1, by decide⟩
  rw [hall, Finset.card_product, Finset.card_range, Finset.card_range]

/-- The way between the two ops. -/
theorem sideBySide_route : sideBySide.device.opRoute ⟨10⟩ leftOp rightOp =
      .ok (.noc0, some ⟨⟨0, 1⟩, ⟨0, 1⟩⟩) ∧
    Box.Sweeps ⟨⟨0, 1⟩, ⟨0, 1⟩⟩ .noc0 .y leftOp rightOp := by
  have hway : sideBySide.device.opRoute ⟨10⟩ leftOp rightOp =
      .ok (.noc0, some ⟨⟨0, 1⟩, ⟨0, 1⟩⟩) := by decide
  have hmesh : ∀ op ∈ sideBySide.ops.values, op.OnMesh sideBySide.device :=
    onMesh_of_validate (by decide)
  have hleft := hmesh leftOp (by decide)
  have hright := hmesh rightOp (by decide)
  refine ⟨hway, ?_⟩
  obtain ⟨n, ⟨hnone, _⟩ | ⟨a, box, hsome, hpos, _, hbox⟩⟩ :=
    Device.opRoute_cases hleft hright (by decide) ⟨10⟩ (by decide)
  · cases hway.symm.trans hnone
  · cases hway.symm.trans hsome
    cases a with
    | x => exact absurd hpos (by decide)
    | y => exact hbox

/-- Selection counts the paths, and faults on too many. -/
theorem crowded_decision (h : 2 ^ 32 ≤ k * m) :
    (crowded k m).decidePipe {} .adjacent (crowdedPipe k m) = fault .overflow := by
  have hk : 0 < k := Nat.pos_of_mul_pos_right (Nat.lt_of_lt_of_le (by decide) h)
  have hm : 0 < m := Nat.pos_of_mul_pos_left (Nat.lt_of_lt_of_le (by decide) h)
  obtain ⟨c, hclass, hops, hjoins, hcast⟩ := crowded_class hk hm
  obtain ⟨src, dst, hends, _⟩ := classifies_of_classify hclass
  obtain ⟨hway, hbox⟩ := sideBySide_route
  have hway : (crowded k m).device.opRoute (crowdedPipe k m).id leftOp rightOp = _ := hway
  have hmany : ¬ ((crowded k m).pathsBehind (crowdedPipe k m) .noc0 .y).card < UInt32.size := by
    rw [crowded_pathsBehind, Nat.mul_comm]
    exact Nat.not_lt.2 h
  have hrate := rate_swept (crowded_connected hk hm) hcast (crowded_leads k m) hbox
  rw [if_neg hmany] at hrate
  have hselect : (crowded k m).select {} (crowdedPipe k m) c = fault .overflow := by
    rw [select_eq_rate hends hops hjoins rfl]
    exact bind_eq_error.2 (Or.inl (bind_eq_error.2 (Or.inr ⟨_, hway, hrate⟩)))
  exact bind_eq_error.2 (Or.inr ⟨c, hclass, bind_eq_error.2 (Or.inl hselect)⟩)

/-- Once the words cannot count the paths of the crowded pipe, the pass overflows. -/
theorem crowded_fault (h : 2 ^ 32 ≤ k * m) (logging : Logging) :
    ((crowded k m).run {} .adjacent logging).1 = fault .overflow := by
  have hk : 0 < k := Nat.pos_of_mul_pos_right (Nat.lt_of_lt_of_le (by decide) h)
  have hm : 0 < m := Nat.pos_of_mul_pos_left (Nat.lt_of_lt_of_le (by decide) h)
  have hl : Ledger.ofEpoch sideBySide = .ok ⟨1024, .ofList [(⟨0, 0, 1⟩, 32), (⟨0, 1, 0⟩, 32)]⟩ := by
    decide
  have hl : Ledger.ofEpoch (crowded k m) = _ := hl
  have hdecisions : (crowded k m).decisions {} .adjacent = fault .overflow := by
    change [crowdedPipe k m].mapM _ = _
    rw [List.mapM_cons, crowded_decision h]
    rfl
  rw [run, crowded_valid hk hm]
  dsimp only
  rw [hl]
  dsimp only
  rw [runValid, routeValid, hdecisions]
  rfl

end crowded

/-- The conditions on keys, paths and logged bytes cannot be dropped, even for valid epochs that
were read from a file and meet the others. Relay buffers under other ids than their own make the
pass look for a missing entry; `2 ^ 32` paths overflow a word, and so do `2 ^ 64` bytes in a report
that is logged. -/
theorem run_faults_on_files :
    (File.read (File.write [strayRelays]) = .ok [strayRelays] ∧ strayRelays.validate = .ok () ∧
      (∀ p ∈ strayRelays.pipes.values, p.inputs.length * p.timesteps < 2 ^ 32) ∧
      (∀ op ∈ strayRelays.ops.values, (strayRelays.inputsOf op.name).length < 2 ^ 31) ∧
      strayRelays.spareL1 {} < 2 ^ 64 ∧
      ∀ logging, (strayRelays.run {} .adjacent logging).1 = fault .missingEntry) ∧
    (∃ e, File.read (File.write [e]) = .ok [e] ∧ e.validate = .ok () ∧ e.WellKeyed ∧
      (∀ op ∈ e.ops.values, (e.inputsOf op.name).length < 2 ^ 31) ∧ e.spareL1 {} < 2 ^ 64 ∧
      ∀ logging, (e.run {} .adjacent logging).1 = fault .overflow) ∧
    File.read (File.write [roomyCores]) = .ok [roomyCores] ∧ roomyCores.validate = .ok () ∧
      roomyCores.WellKeyed ∧
      (∀ p ∈ roomyCores.pipes.values, p.inputs.length * p.timesteps < 2 ^ 32) ∧
      (∀ op ∈ roomyCores.ops.values, (roomyCores.inputsOf op.name).length < 2 ^ 31) ∧
      (roomyCores.run anyLatency .adjacent .on).1 = fault .overflow := by
  have hread {e : Epoch} (h : e.Fits) : File.read (File.write [e]) = .ok [e] := by
    have hfits : File.Fits [e] := ⟨(by decide : 1 < UInt64.size), List.forall_mem_singleton.2 h⟩
    simpa using File.read_write_append hfits []
  refine ⟨⟨hread (by decide), by decide, by decide, by decide, by decide, fun logging => ?_⟩,
    ⟨crowded 65536 65536, hread (crowded_fits (by decide) (by decide)),
      crowded_valid (by decide) (by decide), ?_, ?_, ?_, crowded_fault (by decide)⟩,
    hread (by decide), by decide +kernel, by decide, by decide, by decide, by decide +kernel⟩
  · cases logging <;> decide
  · have hk : sideBySide.WellKeyed := by decide
    refine { hk with pipes := fun entry he => ?_ }
    cases List.mem_singleton.1 he
    rfl
  · have hinputs : ∀ op ∈ sideBySide.ops.values, (sideBySide.inputsOf op.name).length < 2 ^ 31 := by
      decide
    exact hinputs
  · have hspare : sideBySide.spareL1 {} < 2 ^ 64 := by decide
    exact hspare

end Epoch

end TorusRouting
