import TorusRouting.Proofs.L1.Capacity
import TorusRouting.Proofs.Routing.Assignment
import TorusRouting.Proofs.Routing.Balance
import TorusRouting.Proofs.Routing.Tally

/-!
# All or nothing on a fresh epoch

On an epoch without routings the pass can only fail before it writes anything: what is written
afterwards has been decided for pipes that are stored, each once, and nothing has been moved yet. So
the pass routes every pipe or leaves the epoch as it was. The one thing that can go wrong later is a
fault, when an op has more inputs than its load can count or the totals of the report leave the
word.
-/

namespace TorusRouting.Epoch

variable {e e' : Epoch} {config : Config} {oracle : Oracle} {logging : Logging}
  {ds : List Decision}

/-! ## Decided and valid entries -/

/-- A selected routing has not been moved. -/
theorem select_rebalanced {p : Pipe} {c : PipeClass} {r : Routing}
    (h : e.select config p c = .ok r) : r.rebalanced = false := by
  unfold select at h
  split at h
  · split at h
    · obtain ⟨_, _, h⟩ := bind_eq_ok.1 h
      obtain ⟨_, _, h⟩ := bind_eq_ok.1 h
      obtain ⟨_, _, h⟩ := bind_eq_ok.1 h
      cases pure_eq_ok.1 h
      rfl
    · cases h
  · cases h

/-- Nothing that is decided has been moved. -/
theorem decisions_rebalanced (h : e.decisions config oracle = .ok ds) :
    ∀ d ∈ ds, d.routing.rebalanced = false := by
  intro d hd
  obtain ⟨p, _, h⟩ := exists_left_of_forall₂ (mapM_eq_ok.1 h) hd
  obtain ⟨c, _, h⟩ := bind_eq_ok.1 h
  obtain ⟨r, hr, h⟩ := bind_eq_ok.1 h
  cases pure_eq_ok.1 h
  exact select_rebalanced hr

/-- The buffers of a valid epoch are sound. -/
theorem check_of_validate (h : e.validate = .ok ()) : ∀ b ∈ e.buffers.values, b.check = .ok () := by
  obtain ⟨_, _, h⟩ := bind_eq_ok.1 h
  obtain ⟨_, hbuffers, _⟩ := bind_eq_ok.1 h
  intro b hb
  obtain ⟨_, hcheck, _⟩ := bind_eq_ok.1 (forM_eq_ok.1 hbuffers b hb)
  exact hcheck

/-! ## Every stage after the first write succeeds -/

/-- The decisions for an epoch without routings are all written. They leave every pipe routed, and
none moved. -/
theorem assignAll_fresh (hk : e.WellKeyed) (hn : ∀ p ∈ e.pipes.values, p.routing = none)
    (hd : e.decisions config oracle = .ok ds) :
    ∃ e₁, assignAll ds e = (.ok (), e₁) ∧ e.Rerouted e₁ ∧ e₁.Routed ∧
      e₁.Movable (ds.map (·.pipe)) := by
  have hpipe := decisions_pipe hd
  have hv : e.pipes.values = [] ++ (e.pipes.values ++ []) := (List.append_nil _).symm
  obtain ⟨e₁, heq, hroute, hvalues⟩ := assignAll_unrouted hk hv hpipe hn []
  rw [List.append_nil, List.nil_append] at hvalues
  have hwritten : ∀ p ∈ e₁.pipes.values, ∃ d ∈ ds, p.routing = some d.routing := by
    intro p hp
    have hzip : List.zipWith Pipe.written e.pipes.values ds =
        (e.pipes.values.zip ds).map fun x => x.1.written x.2 := by
      rw [List.map_zip_eq_zipWith]
      rfl
    rw [hvalues, hzip] at hp
    obtain ⟨x, hx, rfl⟩ := List.mem_map.1 hp
    exact ⟨x.2, (List.of_mem_zip hx).2, rfl⟩
  refine ⟨e₁, ?_, hroute, fun p hp => ?_, fun id hid => ?_⟩
  · rw [List.append_nil] at heq
    exact heq
  · obtain ⟨d, _, hr⟩ := hwritten p hp
    rw [hr]
    rfl
  · rw [hpipe] at hid
    obtain ⟨p, hp, rfl⟩ := List.mem_map.1 hid
    obtain ⟨p', hp', _⟩ := hroute.pipe p.id p (hk.pipes.get?_key hp)
    obtain ⟨d, hd', hr⟩ := hwritten p' (Table.mem_values_of_get? hp')
    refine ⟨p', hp', fun r hr' => ?_⟩
    cases hr.symm.trans hr'
    exact decisions_rebalanced hd d hd'

/-- Once every decision is made, writing succeeds on an epoch without routings. So does balancing,
unless the load of an op does not fit a word. -/
theorem balance_fresh (hk : e.WellKeyed) (hn : ∀ p ∈ e.pipes.values, p.routing = none)
    (hd : e.decisions config oracle = .ok ds) :
    ∃ e₁, assignAll ds e = (.ok (), e₁) ∧
      ((∃ lb e₂, (tally ds).balance e₁ = (.ok lb, e₂) ∧ e.Rerouted e₂ ∧ e₂.Routed) ∨
        ((tally ds).balance e₁).1 = fault .overflow ∧
          ∃ op n, 2 ^ 32 ≤ e₁.loadOn ((tally ds).feeds op) n) := by
  obtain ⟨e₁, hassign, hroute, hrouted, hmovable⟩ := assignAll_fresh hk hn hd
  have hnodup : (ds.map (·.pipe)).Nodup := by
    rw [decisions_pipe hd]
    exact hk.pipes.nodup
  refine ⟨e₁, hassign, ?_⟩
  rcases Balancer.balance_cases (Balancer.tally_pipes_nodup hnodup)
    (hmovable.mono (Balancer.tally_pipes ds).subset) with ⟨lb, e₂, hbalance, _⟩ | hfault
  · have hwrites := Balancer.balanceOps_writes ((tally ds).ops.values.map (·.map (·.2))) {} e₁
    rw [← Balancer.balance, hbalance] at hwrites
    have hroute₂ := hwrites.rerouted
    exact .inl ⟨lb, e₂, hbalance, hroute.trans hroute₂, hroute₂.routed hrouted⟩
  · exact .inr hfault

/-- Upsizing succeeds on a routed copy of a valid epoch, against the ledger of the epoch. Its report
can be logged if the spare L1 fits a word. -/
theorem upsize_fresh {l : Ledger} (hfiled : e.Filed config) (hvalid : e.validate = .ok ())
    (hl : Ledger.ofEpoch e = .ok l) (hroute : e.Rerouted e') :
    ∃ report e'' l', e'.upsize config l = (.ok report, e'', l') ∧ e''.pipes = e'.pipes ∧
      ∀ index stats logging, (logging = .on → e.spareL1 config < UInt64.size) →
        PassReport.log ⟨index, stats, report⟩ logging = .ok ⟨index, stats, report⟩ := by
  have hsound : ∀ b ∈ e'.growing config, b.check = .ok () := by
    intro b hb
    rw [hroute.growing_eq] at hb
    exact check_of_validate hvalid b (mem_growing.1 hb).1
  have hfiled' := hroute.filed hfiled
  have haccounts := (Ledger.ofEpoch_accounts hl).congr hroute.device hroute.buffers
  obtain ⟨report, _, e'', l', heq, hup, _⟩ := upsize_filed config hfiled' hsound haccounts
  refine ⟨report, e'', l', heq, hup.grows.pipes, fun index stats logging hspare => ?_⟩
  refine PassReport.log_eq_ok.2 ⟨rfl, fun hon => ?_⟩
  exact exists_text_of_upsize hfiled' hsound haccounts
    (hroute.spareL1_eq config ▸ hspare hon) heq

/-! ## The whole pass -/

/-- A load leaves the word only if some op has `2 ^ 31` inputs. -/
theorem exists_many_inputs (hd : e.decisions config oracle = .ok ds) {op : String} {n : Network}
    (hover : 2 ^ 32 ≤ e'.loadOn ((tally ds).feeds op) n) :
    ∃ op ∈ e.ops.values, 2 ^ 31 ≤ (e.inputsOf op.name).length := by
  by_contra hfew
  simp only [not_exists, not_and, Nat.not_le] at hfew
  have hfits := e'.loadFits_of_length (length_feeds_lt hd hfew op)
  exact absurd (hfits n) (Nat.not_lt.2 hover)

/-- Once every decision is made, routing an epoch without routings routes every pipe, unless some op
has too many inputs to count. -/
theorem routeValid_fresh (hk : e.WellKeyed) (hn : ∀ p ∈ e.pipes.values, p.routing = none)
    (hd : e.decisions config oracle = .ok ds) :
    (∃ stats e', e.routeValid config oracle = (.ok stats, e') ∧ e.Rerouted e' ∧ e'.Routed) ∨
      (e.routeValid config oracle).1 = fault .overflow ∧
        ∃ op ∈ e.ops.values, 2 ^ 31 ≤ (e.inputsOf op.name).length := by
  obtain ⟨e₁, hassign, hbalance⟩ := balance_fresh hk hn hd
  rw [routeValid, hd]
  dsimp only
  rw [hassign]
  dsimp only
  rcases hbalance with ⟨lb, e₂, hbalance, hroute, hrouted⟩ | ⟨hbalance, op, n, hover⟩
  · rw [hbalance]
    exact .inl ⟨routeStats ds lb e₂, e₂, rfl, hroute, hrouted⟩
  · refine .inr ⟨?_, exists_many_inputs hd hover⟩
    generalize (tally ds).balance e₁ = result at hbalance
    obtain ⟨outcome, e₂⟩ := result
    cases hbalance
    rfl

/-- Routing an epoch without routings routes every pipe, fails and leaves the epoch alone, or is a
fault because some op has too many inputs. -/
theorem routePipes_fresh (hk : e.WellKeyed) (hn : ∀ p ∈ e.pipes.values, p.routing = none)
    (config : Config) (oracle : Oracle) :
    (∃ stats e', e.routePipes config oracle = (.ok stats, e') ∧ e.Rerouted e' ∧ e'.Routed) ∨
      (∃ f, e.routePipes config oracle = (.error f, e)) ∨
      (e.routePipes config oracle).1 = fault .overflow ∧
        ∃ op ∈ e.ops.values, 2 ^ 31 ≤ (e.inputsOf op.name).length := by
  by_cases h : ∃ ds, e.validate = .ok () ∧ e.decisions config oracle = .ok ds
  · obtain ⟨ds, hvalid, hd⟩ := h
    rw [routePipes, hvalid]
    exact (routeValid_fresh hk hn hd).imp_right .inr
  · exact .inr (.inl (routePipes_undecided h))

/-- The pass over a valid epoch that is routed reports what upsizing leaves. -/
theorem run_routed {l : Ledger} {stats : RouteStats} (hk : e.WellKeyed)
    (hvalid : e.validate = .ok ()) (hl : Ledger.ofEpoch e = .ok l)
    (hr : e.routeValid config oracle = (.ok stats, e')) (hroute : e.Rerouted e')
    (logging : Logging) :
    ∃ report e'', e''.pipes = e'.pipes ∧
      e.run config oracle logging = (PassReport.log ⟨e''.index, stats, report⟩ logging, e'') ∧
      ((logging = .on → e.spareL1 config < UInt64.size) →
        e.run config oracle logging = (.ok ⟨e''.index, stats, report⟩, e'')) := by
  obtain ⟨report, e'', l', hup, hpipes, hlog⟩ := upsize_fresh (hk.filed config) hvalid hl hroute
  have hrun : e.run config oracle logging =
      (PassReport.log ⟨e''.index, stats, report⟩ logging, e'') := by
    rw [run, hvalid]
    dsimp only
    rw [hl]
    dsimp only
    rw [runValid, hr]
    dsimp only
    rw [hup]
  refine ⟨report, e'', hpipes, hrun, fun hspare => ?_⟩
  rw [hrun, hlog _ _ logging hspare]

/-- The pass over an epoch without routings routes every pipe, fails and leaves the epoch alone, or
is a fault. That is so only if some op has too many inputs, or if a report is logged while the spare
L1 does not fit a word. -/
theorem run_fresh (hk : e.WellKeyed) (hn : ∀ p ∈ e.pipes.values, p.routing = none)
    (config : Config) (oracle : Oracle) (logging : Logging) :
    (∃ report e', e.run config oracle logging = (.ok report, e') ∧
      e'.pipes.keys = e.pipes.keys ∧ e'.Routed) ∨
      (∃ f, e.run config oracle logging = (.error f, e)) ∨
      (e.run config oracle logging).1 = fault .overflow ∧
        ((∃ op ∈ e.ops.values, 2 ^ 31 ≤ (e.inputsOf op.name).length) ∨
          logging = .on ∧ 2 ^ 64 ≤ e.spareL1 config) := by
  cases hvalid : e.validate with
  | error f =>
    refine .inr (.inl ⟨f, ?_⟩)
    rw [run, hvalid]
  | ok =>
    cases hl : Ledger.ofEpoch e with
    | error f =>
      refine .inr (.inl ⟨f, ?_⟩)
      rw [run, hvalid]
      dsimp only
      rw [hl]
    | ok l =>
      cases hd : e.decisions config oracle with
      | error f =>
        refine .inr (.inl ⟨f, ?_⟩)
        rw [run, hvalid]
        dsimp only
        rw [hl]
        dsimp only
        rw [runValid, routeValid, hd]
      | ok ds =>
        rcases routeValid_fresh hk hn hd with ⟨stats, e₁, hr, hroute, hrouted⟩ | ⟨hfault, hmany⟩
        · obtain ⟨report, e₂, hpipes, hrun, hlogged⟩ := run_routed hk hvalid hl hr hroute logging
          rcases PassReport.log_cases ⟨e₂.index, stats, report⟩ logging with hlog | hlog
          · refine .inl ⟨_, e₂, by rw [hrun, hlog], ?_, ?_⟩
            · rw [hpipes, hroute.keys]
            · rw [Routed, hpipes]
              exact hrouted
          · rw [hlog] at hrun
            refine .inr (.inr ⟨congrArg Prod.fst hrun, .inr ?_⟩)
            by_contra hspare
            cases hrun.symm.trans (hlogged fun hon => Nat.lt_of_not_le fun hle => hspare ⟨hon, hle⟩)
        · refine .inr (.inr ⟨?_, .inl hmany⟩)
          rw [run, hvalid]
          dsimp only
          rw [hl]
          dsimp only
          rw [runValid]
          generalize e.routeValid config oracle = result at hfault
          obtain ⟨outcome, e₁⟩ := result
          cases hfault
          rfl

/-- On an epoch without routings, routing and the whole pass either succeed and leave every pipe
routed, or fail and leave the epoch as it was. The exception is a fault, which takes an op with
`2 ^ 31` inputs, or a report that is logged for `2 ^ 64` bytes of spare L1. Once every decision is
made, writing does not fail, nor does balancing unless the load of an op leaves the word, nor does
upsizing against the ledger of the epoch. -/
theorem pass_all_or_nothing (hk : e.WellKeyed) (hn : ∀ p ∈ e.pipes.values, p.routing = none)
    (config : Config) (oracle : Oracle) (logging : Logging) :
    ((∃ stats e', e.routePipes config oracle = (.ok stats, e') ∧ e'.pipes.keys = e.pipes.keys ∧
        ∀ p ∈ e'.pipes.values, p.routing.isSome) ∨
      (∃ f, e.routePipes config oracle = (.error f, e)) ∨
      (e.routePipes config oracle).1 = fault .overflow ∧
        ∃ op ∈ e.ops.values, 2 ^ 31 ≤ (e.inputsOf op.name).length) ∧
    ((∃ report e', e.run config oracle logging = (.ok report, e') ∧
        e'.pipes.keys = e.pipes.keys ∧ ∀ p ∈ e'.pipes.values, p.routing.isSome) ∨
      (∃ f, e.run config oracle logging = (.error f, e)) ∨
      (e.run config oracle logging).1 = fault .overflow ∧
        ((∃ op ∈ e.ops.values, 2 ^ 31 ≤ (e.inputsOf op.name).length) ∨
          logging = .on ∧ 2 ^ 64 ≤ e.spareL1 config)) ∧
    ∀ ds, e.validate = .ok () → e.decisions config oracle = .ok ds →
      ∃ e₁, assignAll ds e = (.ok (), e₁) ∧
        ((∃ lb e₂, (tally ds).balance e₁ = (.ok lb, e₂) ∧
            ∀ l, Ledger.ofEpoch e = .ok l →
              ∃ report e₃ l', e₂.upsize config l = (.ok report, e₃, l')) ∨
          ((tally ds).balance e₁).1 = fault .overflow ∧
            ∃ op n, 2 ^ 32 ≤ e₁.loadOn ((tally ds).feeds op) n) := by
  refine ⟨?_, run_fresh hk hn config oracle logging, fun ds hvalid hd => ?_⟩
  · rcases routePipes_fresh hk hn config oracle with ⟨stats, e', heq, hroute, hrouted⟩ | hfail
    · exact .inl ⟨stats, e', heq, hroute.keys, hrouted⟩
    · exact .inr hfail
  · obtain ⟨e₁, hassign, hbalance⟩ := balance_fresh hk hn hd
    refine ⟨e₁, hassign, hbalance.imp_left ?_⟩
    rintro ⟨lb, e₂, heq, hroute, _⟩
    refine ⟨lb, e₂, heq, fun l hl => ?_⟩
    obtain ⟨report, e₃, l', hup, _⟩ := upsize_fresh (hk.filed config) hvalid hl hroute
    exact ⟨report, e₃, l', hup⟩

/-- Two gathers from the same relay buffers into one op. -/
def twoGathers : Epoch where
  index := 0
  device := { gridX := 4, gridY := 4, ethernet := [], l1Bytes := 200, reservedBytes := 20 }
  ops := .ofList [("sum", ⟨"sum", 0, 2, 0, 1, 1, false, false, [{}, {}, {}]⟩)]
  buffers := .ofList [
    (⟨1⟩, ⟨⟨1⟩, .relay, ⟨0, 0, 0⟩, none, none, 10, 2, 24, 2⟩),
    (⟨2⟩, ⟨⟨2⟩, .relay, ⟨0, 1, 0⟩, none, none, 10, 2, 24, 2⟩),
    (⟨3⟩, ⟨⟨3⟩, .opInput, ⟨0, 2, 0⟩, none, some (.consumer "sum" 0), 10, 2, 24, 2⟩),
    (⟨4⟩, ⟨⟨4⟩, .opInput, ⟨0, 2, 0⟩, none, some (.consumer "sum" 2), 10, 2, 24, 2⟩)]
  pipes := .ofList [
    (⟨10⟩, ⟨⟨10⟩, [⟨1⟩, ⟨2⟩], [[⟨3⟩]], [], none⟩),
    (⟨20⟩, ⟨⟨20⟩, [⟨1⟩, ⟨2⟩], [[⟨4⟩]], [], none⟩)]

/-- Both gathers are routed, and balancing has moved both to the other network. -/
theorem pass_all_or_nothing_twoGathers :
    twoGathers.WellKeyed ∧ (∀ p ∈ twoGathers.pipes.values, p.routing = none) ∧
    ∃ stats e', twoGathers.routePipes {} .adjacent = (.ok stats, e') ∧
      stats.loopback = ⟨1, 2⟩ ∧ ∀ p ∈ e'.pipes.values, p.routing.isSome := by
  have hk : twoGathers.WellKeyed := by decide
  have hn : ∀ p ∈ twoGathers.pipes.values, p.routing = none := by decide
  have hmoved : (twoGathers.routePipes {} .adjacent).1.map (·.loopback) = .ok ⟨1, 2⟩ := by decide
  refine ⟨hk, hn, ?_⟩
  obtain ⟨⟨stats, e', heq, _, hrouted⟩ | ⟨f, hf⟩ | ⟨hf, _⟩, _⟩ :=
    pass_all_or_nothing hk hn {} .adjacent .on
  · rw [heq] at hmoved
    exact ⟨stats, e', heq, Except.ok.inj hmoved, hrouted⟩
  · rw [hf] at hmoved
    cases hmoved
  · rw [hf] at hmoved
    cases hmoved

end TorusRouting.Epoch
