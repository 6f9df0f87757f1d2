import TorusRouting.Proofs.Routing.AllOrNothing
import TorusRouting.Proofs.Routing.Sizing

/-!
# Routing and upsizing commute

Upsizing reads no pipe, and routing reads no allocation. Each writes what the other does not read,
so the two can run in either order: the final epoch has the buffers of the one and the pipes of the
other, and both report what they report on the epoch they were given first.
-/

namespace TorusRouting.Epoch

variable {σ : Type} [ResourceModel σ] {e e' : Epoch}

/-- The epoch with other pipes. -/
def withPipes (e : Epoch) (pipes : Table PipeId Pipe) : Epoch := { e with pipes }

private theorem Rerouted.eq_withPipes (h : e.Rerouted e') : e' = e.withPipes e'.pipes := by
  obtain ⟨index, device, ops, buffers, pipes'⟩ := e'
  obtain ⟨rfl, rfl, rfl, rfl, _, _⟩ := h
  rfl

/-! ## Upsizing does not look at pipes -/

private theorem replay_withPipes (pipes : Table PipeId Pipe) (log : List Relay.GrowthStep)
    (e : Epoch) :
    (e.withPipes pipes).replay log = (e.replay log).withPipes pipes := by
  induction log generalizing e with
  | nil => rfl
  | cons s log ih => exact ih (e.setAllocated s.buffer (UInt64.ofNat s.after))

private theorem upsizeCore_withPipes (pipes : Table PipeId Pipe) (e : Epoch) (config : Config)
    (core : Core) (ids : List BufferId) (m : σ) :
    (e.withPipes pipes).upsizeCore config core ids m =
      ((e.upsizeCore config core ids m).1, (e.upsizeCore config core ids m).2.1.withPipes pipes,
        (e.upsizeCore config core ids m).2.2) := by
  have hcandidate : (e.withPipes pipes).candidate config core = e.candidate config core := rfl
  simp only [upsizeCore, hcandidate, replay_withPipes]
  split <;> rfl

private theorem upsizeCores_withPipes (pipes : Table PipeId Pipe) (config : Config)
    (groups : List (Core × List BufferId)) (r : UpsizeReport) (e : Epoch) (m : σ) :
    upsizeCores config groups r (e.withPipes pipes) m =
      ((upsizeCores config groups r e m).1, (upsizeCores config groups r e m).2.1.withPipes pipes,
        (upsizeCores config groups r e m).2.2) := by
  induction groups generalizing r e m with
  | nil => rfl
  | cons group groups ih =>
    obtain ⟨core, ids⟩ := group
    rw [upsizeCores, upsizeCores, upsizeCore_withPipes]
    rcases e.upsizeCore config core ids m with ⟨_ | rows, e₁, m₁⟩
    · rfl
    · exact ih _ e₁ m₁

/-- Upsizing an epoch with other pipes gives the same report or the same failure, grows the same
buffers and leaves the same model. -/
theorem upsize_withPipes (pipes : Table PipeId Pipe) (e : Epoch) (config : Config) (m : σ) :
    (e.withPipes pipes).upsize config m =
      ((e.upsize config m).1, (e.upsize config m).2.1.withPipes pipes,
        (e.upsize config m).2.2) := by
  have hgroups : (e.withPipes pipes).relayBuffers config = e.relayBuffers config := rfl
  rw [upsize, upsize, hgroups]
  split
  · rfl
  · exact upsizeCores_withPipes pipes config _ {} e m

/-! ## The two in either order -/

/-- On a valid epoch routing and upsizing commute, whatever the oracle and the resource model
answer. In either order they leave the same epoch, the resized buffers beside the routed pipes; the
counts or the failure of routing are the same, and so are the report and the model that upsizing
leaves. Against the ledger of the epoch upsizing does report. -/
theorem route_upsize_commute (hk : e.WellKeyed) (hvalid : e.validate = .ok ()) (config : Config)
    (oracle : Oracle) (m : σ) :
    (∃ final, final = { e with
        buffers := (e.upsize config m).2.1.buffers
        pipes := (e.routePipes config oracle).2.pipes } ∧
      (e.routePipes config oracle).2.upsize config m =
        ((e.upsize config m).1, final, (e.upsize config m).2.2) ∧
      (e.upsize config m).2.1.routePipes config oracle =
        ((e.routePipes config oracle).1, final)) ∧
    ∀ l, Ledger.ofEpoch e = .ok l → ∃ report, (e.upsize config l).1 = .ok report := by
  have hroute := e.routePipes_rerouted config oracle
  have hgrow := upsize_grows hk config m
  refine ⟨⟨_, rfl, ?_, ?_⟩, fun l hl => ?_⟩
  · rw [hroute.eq_withPipes, upsize_withPipes, hgrow.eq_withBuffers]
    rfl
  · rw [hgrow.routePipes_eq hvalid, hroute.eq_withPipes]
    rfl
  · obtain ⟨report, e', l', heq, _⟩ := upsize_fresh (hk.filed config) hvalid hl (.refl e)
    exact ⟨report, by rw [heq]⟩

/-- The bytes of the two gathers and their relay buffers. -/
def twoGathersL1 : Ledger where
  capacity := 180
  used := .ofList [(⟨0, 0, 0⟩, 20), (⟨0, 1, 0⟩, 20), (⟨0, 2, 0⟩, 40)]

/-- Both relay buffers grow and both gathers are moved, in either order. -/
theorem route_upsize_commute_twoGathers :
    twoGathers.WellKeyed ∧ twoGathers.validate = .ok () ∧
    Ledger.ofEpoch twoGathers = .ok twoGathersL1 ∧
    ∃ report stats final l', report.grown = 2 ∧ stats.loopback = ⟨1, 2⟩ ∧
      (twoGathers.routePipes {} .adjacent).2.upsize {} twoGathersL1 = (.ok report, final, l') ∧
      (twoGathers.upsize {} twoGathersL1).2.1.routePipes {} .adjacent = (.ok stats, final) := by
  have hk : twoGathers.WellKeyed := by decide
  have hvalid : twoGathers.validate = .ok () := by decide
  have hl : Ledger.ofEpoch twoGathers = .ok twoGathersL1 := by decide
  have hmoved : (twoGathers.routePipes {} .adjacent).1.map (·.loopback) = .ok ⟨1, 2⟩ := by decide
  have hgrown : (twoGathers.upsize {} twoGathersL1).1.map (·.grown) = .ok 2 := by cbv
  obtain ⟨⟨final, _, hupsize, hroute⟩, hreport⟩ :=
    route_upsize_commute hk hvalid {} .adjacent twoGathersL1
  obtain ⟨report, hok⟩ := hreport twoGathersL1 hl
  refine ⟨hk, hvalid, hl, ?_⟩
  cases hstats : (twoGathers.routePipes {} .adjacent).1 with
  | error f =>
    rw [hstats] at hmoved
    cases hmoved
  | ok stats =>
    rw [hok] at hgrown hupsize
    rw [hstats] at hmoved hroute
    exact ⟨report, stats, final, _, Except.ok.inj hgrown, Except.ok.inj hmoved, hupsize, hroute⟩

end TorusRouting.Epoch
