import TorusRouting.Proofs.Routing.Frame

/-!
# Writing the decisions

Decisions are written pipe by pipe in table order. A pipe that already has a routing stops the
writing, and the pipes before it keep what was written into them. So a pass over an epoch with a
routed pipe always fails, and leaves the epoch alone exactly when it fails before it writes or when
the first pipe is a routed one.
-/

namespace TorusRouting

/-- The pipe with a decided routing. -/
def Pipe.written (p : Pipe) (d : Decision) : Pipe := { p with routing := some d.routing }

namespace Epoch

variable {e e' : Epoch} {config : Config} {oracle : Oracle}

/-- An epoch whose pipes have the routings they had is the same epoch. -/
theorem Rerouted.eq_of_values (h : e.Rerouted e') (hk : e.WellKeyed)
    (hv : e'.pipes.values = e.pipes.values) : e' = e := by
  have hpipes : e'.pipes = e.pipes := (h.wellKeyed hk).pipes.ext hk.pipes hv
  calc e' = ⟨e'.index, e'.device, e'.ops, e'.buffers, e'.pipes⟩ := rfl
    _ = ⟨e.index, e.device, e.ops, e.buffers, e.pipes⟩ := by
      rw [h.index, h.device, h.ops, h.buffers, hpipes]

/-- Replacing a pipe replaces one value. -/
theorem setPipe_values (hk : e.WellKeyed) {done rest : List Pipe} {p : Pipe}
    (hv : e.pipes.values = done ++ p :: rest) (p' : Pipe) :
    (e.setPipe p.id p').pipes.values = done ++ p' :: rest := by
  have hnodup := hk.pipes.nodup
  rw [hv, List.map_append, List.map_cons, List.nodup_append, List.nodup_cons] at hnodup
  obtain ⟨_, ⟨hrest, _⟩, hdone⟩ := hnodup
  have hkeep (l : List Pipe) (hl : ∀ q ∈ l, ¬ q.id = p.id) :
      (l.map fun q => if q.id = p.id then p' else q) = l := by
    refine (List.map_congr_left fun q hq => ?_).trans (List.map_id l)
    exact if_neg (hl q hq)
  change (e.pipes.modify p.id fun _ => p').values = _
  rw [hk.pipes.values_modify, hv, List.map_append, List.map_cons, if_pos rfl, hkeep, hkeep]
  · intro q hq heq
    exact hrest (heq ▸ List.mem_map.2 ⟨q, hq, rfl⟩)
  · intro q hq heq
    exact hdone _ (List.mem_map.2 ⟨q, hq, rfl⟩) _ (List.mem_cons_self ..) heq

private theorem get?_of_values (hk : e.WellKeyed) {done rest : List Pipe} {p : Pipe}
    (hv : e.pipes.values = done ++ p :: rest) : e.pipes.get? p.id = some p :=
  hk.pipes.get?_key (hv ▸ List.mem_append_right _ (List.mem_cons_self ..))

/-- Decisions for pipes without a routing are all written. -/
theorem assignAll_unrouted (hk : e.WellKeyed) {done before rest : List Pipe}
    {ds : List Decision} (hv : e.pipes.values = done ++ (before ++ rest))
    (hd : ds.map (·.pipe) = before.map (·.id)) (hn : ∀ p ∈ before, p.routing = none)
    (ds' : List Decision) :
    ∃ e₁, assignAll (ds ++ ds') e = assignAll ds' e₁ ∧ e.Rerouted e₁ ∧
      e₁.pipes.values = done ++ (List.zipWith Pipe.written before ds ++ rest) := by
  induction before generalizing done ds e with
  | nil =>
    cases List.map_eq_nil_iff.1 hd
    exact ⟨e, rfl, .refl e, hv⟩
  | cons p before ih =>
    cases ds with
    | nil => cases hd
    | cons d ds =>
      rw [List.map_cons, List.map_cons, List.cons.injEq] at hd
      obtain ⟨hid, hd⟩ := hd
      rw [List.forall_mem_cons] at hn
      rw [List.cons_append] at hv
      have hassign : e.assign d.pipe d.routing = .ok (e.setPipe p.id (p.written d)) := by
        rw [hid]
        exact assign_eq_ok.2 ⟨p, get?_of_values hk hv, hn.1, rfl⟩
      have hroute := (Write.assign hassign).rerouted
      have hv₁ : (e.setPipe p.id (p.written d)).pipes.values =
          (done ++ [p.written d]) ++ (before ++ rest) := by
        rw [setPipe_values hk hv, List.append_assoc, List.singleton_append]
      obtain ⟨e₁, heq, hroute₁, hvalues⟩ := ih (hroute.wellKeyed hk) hv₁ hd hn.2
      refine ⟨e₁, ?_, hroute.trans hroute₁, ?_⟩
      · rw [List.cons_append, assignAll, hassign]
        exact heq
      · rw [hvalues, List.append_assoc, List.singleton_append, List.zipWith_cons_cons,
          List.cons_append]

/-- A routed pipe stops the writing. -/
theorem assignAll_routed (hk : e.WellKeyed) {done rest : List Pipe} {p : Pipe} {d : Decision}
    (hv : e.pipes.values = done ++ p :: rest) (hp : p.routing.isSome) (hid : d.pipe = p.id)
    (ds : List Decision) :
    assignAll (d :: ds) e = (reject (.routeAlreadyAssigned p.id), e) := by
  obtain ⟨r, hr⟩ := Option.isSome_iff_exists.1 hp
  have hassign : e.assign d.pipe d.routing = reject (.routeAlreadyAssigned p.id) := by
    rw [assign, hid, pipe_eq_ok.2 (get?_of_values hk hv)]
    change (p.assign d.routing >>= _) = _
    rw [Pipe.assign, hr]
    rfl
  rw [assignAll, hassign]
  rfl

/-- There is one decision for each pipe, in table order. -/
theorem decisions_pipe {ds : List Decision} (h : e.decisions config oracle = .ok ds) :
    ds.map (·.pipe) = e.pipes.values.map (·.id) := by
  refine (map_eq_map_of_forall₂ ((mapM_eq_ok.1 h).imp fun p d hd => ?_)).symm
  obtain ⟨cls, _, hd⟩ := bind_eq_ok.1 hd
  obtain ⟨routing, _, hd⟩ := bind_eq_ok.1 hd
  cases hd
  rfl

/-- Writing decisions for the pipes of an epoch stops at the first routed pipe. -/
theorem assignAll_stops (hk : e.WellKeyed) {before after : List Pipe} {p : Pipe}
    {ds : List Decision} (hv : e.pipes.values = before ++ p :: after)
    (hn : ∀ q ∈ before, q.routing = none) (hp : p.routing.isSome)
    (hd : ds.map (·.pipe) = e.pipes.values.map (·.id)) :
    ∃ e₁, assignAll ds e = (reject (.routeAlreadyAssigned p.id), e₁) ∧ e.Rerouted e₁ ∧
      e₁.pipes.values = List.zipWith Pipe.written before ds ++ p :: after := by
  rw [hv, List.map_append, List.map_cons, List.map_eq_append_iff] at hd
  obtain ⟨ds₁, ds₂, rfl, hd₁, hd₂⟩ := hd
  obtain ⟨d, ds₃, rfl, hid, _⟩ := List.map_eq_cons_iff.1 hd₂
  obtain ⟨e₁, heq, hroute, hvalues⟩ :=
    assignAll_unrouted hk (hv.trans (List.nil_append _).symm) hd₁ hn (d :: ds₃)
  rw [List.nil_append] at hvalues
  refine ⟨e₁, ?_, hroute, ?_⟩
  · rw [heq, assignAll_routed (hroute.wellKeyed hk) hvalues hp hid]
  · have hlength : before.length = ds₁.length := by simpa using (congrArg List.length hd₁).symm
    have hzip : List.zipWith Pipe.written (before ++ []) (ds₁ ++ d :: ds₃) =
        List.zipWith Pipe.written before ds₁ ++ List.zipWith Pipe.written [] (d :: ds₃) :=
      List.zipWith_append hlength
    rw [List.append_nil, List.zipWith_nil_left, List.append_nil] at hzip
    rw [hvalues, hzip]

/-- Written pipes differ from unrouted ones. -/
theorem written_append_eq_iff {before rest : List Pipe} {ds : List Decision}
    (hn : ∀ q ∈ before, q.routing = none) (hd : before.length ≤ ds.length) :
    List.zipWith Pipe.written before ds ++ rest = before ++ rest ↔ before = [] := by
  cases before with
  | nil => simp
  | cons q before =>
    cases ds with
    | nil => simp at hd
    | cons d ds =>
      simp only [reduceCtorEq, iff_false]
      intro heq
      rw [List.zipWith_cons_cons, List.cons_append, List.cons_append, List.cons.injEq] at heq
      have hrouting : (q.written d).routing = none := by
        rw [heq.1]
        exact hn q (List.mem_cons_self ..)
      cases hrouting

/-- Routing that fails before the writing leaves the epoch alone. -/
theorem routePipes_undecided
    (h : ¬ ∃ ds, e.validate = .ok () ∧ e.decisions config oracle = .ok ds) :
    ∃ f, e.routePipes config oracle = (.error f, e) := by
  rw [routePipes]
  cases hv : e.validate with
  | error f => exact ⟨f, rfl⟩
  | ok =>
    rw [routeValid]
    cases hd : e.decisions config oracle with
    | error f => exact ⟨f, rfl⟩
    | ok ds => exact absurd ⟨ds, hv, hd⟩ h

/-- With every decision made, routing stops at the first routed pipe. -/
theorem routePipes_stops (hk : e.WellKeyed) {before after : List Pipe} {p : Pipe}
    {ds : List Decision} (hv : e.pipes.values = before ++ p :: after)
    (hn : ∀ q ∈ before, q.routing = none) (hp : p.routing.isSome) (hvalid : e.validate = .ok ())
    (hd : e.decisions config oracle = .ok ds) :
    ∃ e₁, e.routePipes config oracle = (reject (.routeAlreadyAssigned p.id), e₁) ∧
      e.Rerouted e₁ ∧ e₁.pipes.values = List.zipWith Pipe.written before ds ++ p :: after ∧
      (e₁ = e ↔ before = []) := by
  have hpipe := decisions_pipe hd
  obtain ⟨e₁, hassign, hroute, hvalues⟩ := assignAll_stops hk hv hn hp hpipe
  refine ⟨e₁, ?_, hroute, hvalues, ?_⟩
  · rw [routePipes, hvalid]
    dsimp only
    rw [routeValid, hd]
    dsimp only
    rw [hassign]
    rfl
  · have hlength : before.length ≤ ds.length := by
      have hcount := congrArg List.length hpipe
      rw [List.length_map, List.length_map, hv, List.length_append] at hcount
      omega
    rw [← written_append_eq_iff hn hlength, ← hvalues, ← hv]
    constructor
    · intro heq
      rw [heq]
    · exact hroute.eq_of_values hk

/-- Routing an epoch with a routed pipe always fails. Once every decision is made, it fails at the
first routed pipe, after the decisions for the pipes before it were written. So the epoch is left
alone exactly when the decisions fail or the first pipe is a routed one. -/
theorem routePipes_on_routed (hk : e.WellKeyed) (hr : ∃ p ∈ e.pipes.values, p.routing.isSome)
    (config : Config) (oracle : Oracle) :
    ∃ before p after, e.pipes.values = before ++ p :: after ∧
      (∀ q ∈ before, q.routing = none) ∧ p.routing.isSome ∧
      (∃ f, (e.routePipes config oracle).1 = .error f) ∧
      (∀ ds, e.validate = .ok () → e.decisions config oracle = .ok ds →
        (e.routePipes config oracle).1 = reject (.routeAlreadyAssigned p.id) ∧
        e.Rerouted (e.routePipes config oracle).2 ∧
        (e.routePipes config oracle).2.pipes.values =
          List.zipWith Pipe.written before ds ++ p :: after) ∧
      ((e.routePipes config oracle).2 = e ↔
        before = [] ∨ ¬ ∃ ds, e.validate = .ok () ∧ e.decisions config oracle = .ok ds) := by
  obtain ⟨p, hfind⟩ := Option.isSome_iff_exists.1 (List.find?_isSome.2 hr)
  obtain ⟨hp, before, after, hv, hbefore⟩ := List.find?_eq_some_iff_append.1 hfind
  have hn : ∀ q ∈ before, q.routing = none := by
    intro q hq
    simpa using hbefore q hq
  refine ⟨before, p, after, hv, hn, hp, ?_⟩
  by_cases h : ∃ ds, e.validate = .ok () ∧ e.decisions config oracle = .ok ds
  · obtain ⟨ds, hvalid, hd⟩ := h
    obtain ⟨e₁, heq, hroute, hvalues, hsame⟩ := routePipes_stops hk hv hn hp hvalid hd
    rw [heq]
    refine ⟨⟨_, rfl⟩, fun ds' _ hd' => ?_, ?_⟩
    · cases hd.symm.trans hd'
      exact ⟨rfl, hroute, hvalues⟩
    · rw [hsame]
      constructor
      · exact Or.inl
      · rintro (hnil | hundecided)
        · exact hnil
        · exact absurd ⟨ds, hvalid, hd⟩ hundecided
  · obtain ⟨f, hf⟩ := routePipes_undecided h
    rw [hf]
    refine ⟨⟨f, rfl⟩, fun ds hvalid hd => absurd ⟨ds, hvalid, hd⟩ h, ?_⟩
    constructor
    · intro _
      exact Or.inr h
    · intro _
      rfl

/-- A chain of three relay buffers whose second pipe is routed already. -/
def halfRouted : Epoch where
  index := 0
  device := { gridX := 4, gridY := 4, ethernet := [], l1Bytes := 1024, reservedBytes := 0 }
  ops := .empty
  buffers := .ofList [
    (⟨1⟩, ⟨⟨1⟩, .relay, ⟨0, 0, 0⟩, none, none, 16, 2, 8, 2⟩),
    (⟨2⟩, ⟨⟨2⟩, .relay, ⟨0, 1, 0⟩, none, none, 16, 2, 8, 2⟩),
    (⟨3⟩, ⟨⟨3⟩, .relay, ⟨0, 2, 0⟩, none, none, 16, 2, 8, 2⟩)]
  pipes := .ofList [
    (⟨10⟩, ⟨⟨10⟩, [⟨1⟩], [[⟨2⟩]], [], none⟩),
    (⟨20⟩, ⟨⟨20⟩, [⟨2⟩], [[⟨3⟩]], [],
      some ⟨some ⟨.noc0, .noc0, .unicast, .unicast⟩, false, .exact, false⟩⟩)]

/-- An epoch of which one pipe is routed already is refused. -/
theorem routePipes_on_halfRouted :
    halfRouted.WellKeyed ∧ (∃ p ∈ halfRouted.pipes.values, p.routing.isSome) ∧
    ∃ f, (halfRouted.routePipes {} .adjacent).1 = .error f := by
  have hk : halfRouted.WellKeyed := by decide
  have hr : ∃ p ∈ halfRouted.pipes.values, p.routing.isSome := by decide
  obtain ⟨_, _, _, _, _, _, hfails, _⟩ := routePipes_on_routed hk hr {} .adjacent
  exact ⟨hk, hr, hfails⟩

/-- A failed routing can leave pipes routed: here the first pipe is, although the second one is
refused. -/
theorem halfRouted_left_changed :
    halfRouted.WellKeyed ∧ (∃ p ∈ halfRouted.pipes.values, p.routing.isSome) ∧
    (halfRouted.routePipes {} .adjacent).1 = reject (.routeAlreadyAssigned ⟨20⟩) ∧
    (halfRouted.routePipes {} .adjacent).2 ≠ halfRouted := by
  decide

end Epoch

end TorusRouting
