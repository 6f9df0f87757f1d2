import Mathlib.Algebra.Group.Nat.Defs
import TorusRouting.Proofs.Routing.Frame

/-!
# Counting the load of an op

The load of an op is counted in words, one feed at a time, and the two counts of a network are
added. Next to it stand the exact numbers, taken from the routes of the epoch. The count of stored
feeds is exact, or it is a fault because a number leaves the word; it never fails otherwise. An op
with fewer than `2 ^ 31` inputs can be counted.
-/

namespace TorusRouting

variable {e e' : Epoch} {feeds : List Feed} {l l' : Load}

/-! ## Counters -/

namespace PerNetwork

variable {p q r : PerNetwork UInt32} {j k : Network → Nat}

/-- The counters of `q` are those of `p` with the given numbers added. -/
def Adds (p : PerNetwork UInt32) (k : Network → Nat) (q : PerNetwork UInt32) : Prop :=
  ∀ n, (q.get n).toNat = (p.get n).toNat + k n

/-- Some counter of `p` has no room for the given number. -/
def Overflows (p : PerNetwork UInt32) (k : Network → Nat) : Prop :=
  ∃ n, UInt32.size ≤ (p.get n).toNat + k n

/-- Numbers are added one after the other. -/
theorem Adds.trans (h : p.Adds j q) (h' : q.Adds k r) : p.Adds (fun n => j n + k n) r := by
  intro n
  rw [h' n, h n, Nat.add_assoc]

/-- A counter that overflows later does so in total. -/
theorem Adds.overflows (h : p.Adds j q) (h' : q.Overflows k) :
    p.Overflows fun n => j n + k n := by
  obtain ⟨n, hn⟩ := h'
  rw [h n, Nat.add_assoc] at hn
  exact ⟨n, hn⟩

/-- A counter that overflows does so with more to count. -/
theorem Overflows.mono (h : p.Overflows j) (hjk : ∀ n, j n ≤ k n) : p.Overflows k := by
  obtain ⟨n, hn⟩ := h
  exact ⟨n, Nat.le_trans hn (Nat.add_le_add_left (hjk n) _)⟩

/-- A counter that was counted up has not overflowed. -/
theorem Adds.not_overflows (h : p.Adds k q) : ¬ p.Overflows k := by
  rintro ⟨n, hn⟩
  rw [← h n] at hn
  exact Nat.not_lt.2 hn (q.get n).toNat_lt

/-- One more is counted on its network, or the counter there is full. -/
theorem countIf_cases (p : PerNetwork UInt32) (cond : Bool) (n : Network) :
    (∃ q, p.countIf cond n = .ok q ∧ p.Adds (fun m => (cond && n = m).toNat) q) ∨
      p.countIf cond n = fault .overflow ∧ p.Overflows fun m => (cond && n = m).toNat := by
  cases cond with
  | false =>
    refine .inl ⟨p, ?_, fun m => ?_⟩
    · cases n <;> rfl
    · rfl
  | true =>
    by_cases hroom : (p.get n).toNat + 1 < UInt32.size
    · have hword : add32 (p.get n) 1 = .ok (UInt32.ofNat ((p.get n).toNat + 1)) :=
        word32_eq_ok.2 (UInt32.toNat_ofNat_of_lt' hroom)
      have hcount := UInt32.toNat_ofNat_of_lt' hroom
      cases n with
      | noc0 =>
        refine .inl ⟨_, bind_eq_ok.2 ⟨_, hword, rfl⟩, fun m => ?_⟩
        cases m
        · exact hcount
        · rfl
      | noc1 =>
        refine .inl ⟨_, bind_eq_ok.2 ⟨_, hword, rfl⟩, fun m => ?_⟩
        cases m
        · rfl
        · exact hcount
    · have hfault : add32 (p.get n) 1 = fault .overflow := word32_eq_fault (Nat.not_lt.1 hroom)
      refine .inr ⟨?_, n, ?_⟩
      · cases n with
        | noc0 => exact bind_eq_error.2 (.inl hfault)
        | noc1 => exact bind_eq_error.2 (.inl hfault)
      · change UInt32.size ≤ (p.get n).toNat + (decide (n = n)).toNat
        rw [decide_eq_true rfl]
        exact Nat.not_lt.1 hroom

end PerNetwork

/-! ## Exact numbers -/

/-- The sign of a network in the load of `noc0` minus the load of `noc1`. -/
def Network.sign : Network → Int
  | noc0 => 1
  | noc1 => -1

/-- The networks stand against each other. -/
theorem Network.sign_other (n : Network) : n.other.sign = -n.sign := by
  cases n <;> rfl

/-- What a pipe adds to the load of `noc0` minus the load of `noc1`. -/
def Route.pull (loopback : Bool) (l : Route) : Int :=
  l.incoming.sign + if loopback then l.outgoing.sign else 0

/-- A loopback that moves takes its outgoing leg from one side to the other. -/
theorem Route.pull_other (l : Route) :
    pull true { l with outgoing := l.outgoing.other } = pull true l - 2 * l.outgoing.sign := by
  simp only [pull, Network.sign_other, ite_true]
  omega

namespace Epoch

/-- The route of a stored pipe. -/
def route? (e : Epoch) (id : PipeId) : Option Route := (e.pipes.get? id).bind (·.route?)

/-- The listed pipes are stored. -/
def Stored (e : Epoch) (ids : List PipeId) : Prop := ∀ id ∈ ids, (e.pipes.get? id).isSome

/-- The number of feeds that come in on a network. -/
def entering (e : Epoch) (feeds : List Feed) (n : Network) : Nat :=
  feeds.countP fun f => (e.route? f.pipe).any (·.incoming = n)

/-- The number of loopbacks that leave on a network. -/
def looping (e : Epoch) (feeds : List Feed) (n : Network) : Nat :=
  feeds.countP fun f => (e.route? f.pipe).any fun r => f.loopback && r.outgoing = n

/-- The number of loopbacks on a network that may be moved. -/
def switching (e : Epoch) (feeds : List Feed) (n : Network) : Nat :=
  feeds.countP fun f => (e.route? f.pipe).any fun r => f.loopback && f.switchable && r.outgoing = n

/-- The load of the feeds on a network. -/
def loadOn (e : Epoch) (feeds : List Feed) (n : Network) : Nat :=
  e.entering feeds n + e.looping feeds n

/-- The load of the feeds fits a word on both networks. -/
def LoadFits (e : Epoch) (feeds : List Feed) : Prop := ∀ n, e.loadOn feeds n < 2 ^ 32

private theorem countP_feed (q : Feed → Bool) (f : Feed) (feeds : List Feed) :
    (f :: feeds).countP q = [f].countP q + feeds.countP q := by
  rw [← List.singleton_append, List.countP_append]

/-- The first feed comes in on its network. -/
theorem entering_cons (e : Epoch) (f : Feed) (feeds : List Feed) (n : Network) :
    e.entering (f :: feeds) n = e.entering [f] n + e.entering feeds n :=
  countP_feed ..

/-- The first loopback leaves on its network. -/
theorem looping_cons (e : Epoch) (f : Feed) (feeds : List Feed) (n : Network) :
    e.looping (f :: feeds) n = e.looping [f] n + e.looping feeds n :=
  countP_feed ..

/-- The first loopback may be moved off its network. -/
theorem switching_cons (e : Epoch) (f : Feed) (feeds : List Feed) (n : Network) :
    e.switching (f :: feeds) n = e.switching [f] n + e.switching feeds n :=
  countP_feed ..

/-- Loopbacks that may be moved are loopbacks. -/
theorem switching_le (e : Epoch) (feeds : List Feed) (n : Network) :
    e.switching feeds n ≤ e.looping feeds n := by
  refine List.countP_mono_left fun f _ h => ?_
  cases hr : e.route? f.pipe with
  | none =>
    rw [hr] at h
    exact h
  | some r =>
    rw [hr] at h
    simp only [Option.any_some, Bool.and_eq_true] at h ⊢
    exact ⟨h.1.1, h.2⟩

/-- What the listed pipes add to the load of `noc0` minus the load of `noc1`. -/
def pull (e : Epoch) : List Feed → Int
  | [] => 0
  | f :: feeds => ((e.route? f.pipe).map (Route.pull f.loopback)).getD 0 + e.pull feeds

/-- The pull depends on the routes of the feeds alone. -/
theorem pull_congr (h : ∀ f ∈ feeds, e'.route? f.pipe = e.route? f.pipe) :
    e'.pull feeds = e.pull feeds := by
  induction feeds with
  | nil => rfl
  | cons f feeds ih =>
    rw [List.forall_mem_cons] at h
    rw [pull, pull, h.1, ih h.2]

/-- The order of the feeds does not matter. -/
theorem pull_perm {feeds' : List Feed} (h : feeds.Perm feeds') : e.pull feeds = e.pull feeds' := by
  induction h with
  | nil => rfl
  | cons f _ ih => rw [pull, pull, ih]
  | swap f g l => exact Int.add_left_comm ..
  | trans _ _ ih ih' => exact ih.trans ih'

/-- The pull is the difference of the loads. -/
theorem pull_eq_loadOn (e : Epoch) (feeds : List Feed) :
    e.pull feeds = (e.loadOn feeds .noc0 : Int) - e.loadOn feeds .noc1 := by
  induction feeds with
  | nil => rfl
  | cons f feeds ih =>
    rw [pull, ih]
    simp only [loadOn, entering, looping, List.countP_cons]
    cases e.route? f.pipe with
    | none => simp
    | some r =>
      obtain ⟨incoming, outgoing, _, _⟩ := r
      cases incoming <;> cases outgoing <;> cases f.loopback <;>
        simp [Route.pull, Network.sign] <;> omega

/-- The network to move loopbacks off, and how many at most. -/
def excess (e : Epoch) (feeds : List Feed) : Option (Network × Nat) :=
  if 1 < e.pull feeds ∧ 0 < e.switching feeds .noc0 then some (.noc0, (e.pull feeds / 2).toNat)
  else if 1 < -e.pull feeds ∧ 0 < e.switching feeds .noc1 then
    some (.noc1, (-e.pull feeds / 2).toNat)
  else none

/-- Each feed counts at most twice, so fewer than `2 ^ 31` of them fit. -/
theorem loadFits_of_length (e : Epoch) (h : feeds.length < 2 ^ 31) : e.LoadFits feeds := by
  intro n
  have hin : e.entering feeds n ≤ feeds.length := List.countP_le_length
  have hout : e.looping feeds n ≤ feeds.length := List.countP_le_length
  rw [loadOn]
  omega

/-- The load depends on the routes of the feeds alone. -/
theorem loadOn_congr (h : ∀ f ∈ feeds, e'.route? f.pipe = e.route? f.pipe) (n : Network) :
    e'.loadOn feeds n = e.loadOn feeds n := by
  rw [loadOn, loadOn, entering, entering, looping, looping]
  congr 1
  · exact List.countP_congr fun f hf => by rw [h f hf]
  · exact List.countP_congr fun f hf => by rw [h f hf]

/-- Whether the load fits depends on the routes of the feeds alone. -/
theorem loadFits_congr (h : ∀ f ∈ feeds, e'.route? f.pipe = e.route? f.pipe) :
    e'.LoadFits feeds ↔ e.LoadFits feeds :=
  forall_congr' fun n => by rw [loadOn_congr h n]

/-- Where the pipes of all ops are kept, so are the routes of the feeds of each. -/
theorem route?_of_kept {ops : List (List Feed)}
    (h : ∀ id ∈ ops.flatten.map (·.pipe), e'.pipes.get? id = e.pipes.get? id)
    (hfeeds : feeds ∈ ops) : ∀ f ∈ feeds, e'.route? f.pipe = e.route? f.pipe := by
  intro f hf
  rw [route?, h f.pipe (List.mem_map_of_mem (List.mem_flatten.2 ⟨feeds, hfeeds, hf⟩)), route?]

end Epoch

/-! ## One feed -/

namespace Load

/-- The counters of `l'` are those of `l` and the exact numbers of the feeds. -/
structure Counts (l : Load) (e : Epoch) (feeds : List Feed) (l' : Load) : Prop where
  inputs : l.inputs.Adds (e.entering feeds) l'.inputs
  loopbacks : l.loopbacks.Adds (e.looping feeds) l'.loopbacks
  switchable : l.switchable.Adds (e.switching feeds) l'.switchable

/-- Some counter of `l` has no room for the feeds. -/
def Overflows (l : Load) (e : Epoch) (feeds : List Feed) : Prop :=
  l.inputs.Overflows (e.entering feeds) ∨ l.loopbacks.Overflows (e.looping feeds) ∨
    l.switchable.Overflows (e.switching feeds)

private theorem countP_one (p : Feed → Bool) (f : Feed) : [f].countP p = (p f).toNat := by
  rw [List.countP_singleton]
  cases p f <;> rfl

/-- A routed feed is counted, or some counter is full. -/
theorem count_cases (l : Load) {f : Feed} {r : Route} (hr : e.route? f.pipe = some r) :
    (∃ l', l.count f r = .ok l' ∧ l.Counts e [f] l') ∨
      l.count f r = fault .overflow ∧ l.Overflows e [f] := by
  have hin (n : Network) : e.entering [f] n = (true && r.incoming = n).toNat := by
    rw [Epoch.entering, countP_one, hr]
    rfl
  have hout (n : Network) : e.looping [f] n = (f.loopback && r.outgoing = n).toNat := by
    rw [Epoch.looping, countP_one, hr]
    rfl
  have hswitch (n : Network) :
      e.switching [f] n = (f.loopback && f.switchable && r.outgoing = n).toNat := by
    rw [Epoch.switching, countP_one, hr]
    rfl
  rw [count, Overflows, funext hin, funext hout, funext hswitch]
  rcases l.inputs.countIf_cases true r.incoming with ⟨inputs, h₁, hi⟩ | ⟨h₁, hi⟩
  · rcases l.loopbacks.countIf_cases f.loopback r.outgoing with ⟨loopbacks, h₂, hl⟩ | ⟨h₂, hl⟩
    · rcases l.switchable.countIf_cases (f.loopback && f.switchable) r.outgoing with
        ⟨switchable, h₃, hs⟩ | ⟨h₃, hs⟩
      · rw [h₁, h₂, h₃]
        refine .inl ⟨⟨inputs, loopbacks, switchable⟩, rfl, ?_, ?_, ?_⟩
        · exact funext hin ▸ hi
        · exact funext hout ▸ hl
        · exact funext hswitch ▸ hs
      · rw [h₁, h₂, h₃]
        exact .inr ⟨rfl, .inr (.inr hs)⟩
    · rw [h₁, h₂]
      exact .inr ⟨rfl, .inr (.inl hl)⟩
  · rw [h₁]
    exact .inr ⟨rfl, .inl hi⟩

/-- Nothing is counted for a feed without a route. -/
theorem counts_unrouted (l : Load) {f : Feed} (hr : e.route? f.pipe = none) :
    l.Counts e [f] l := by
  refine ⟨fun n => ?_, fun n => ?_, fun n => ?_⟩
  · rw [Epoch.entering, countP_one, hr]
    rfl
  · rw [Epoch.looping, countP_one, hr]
    rfl
  · rw [Epoch.switching, countP_one, hr]
    rfl

/-- Feeds are counted one after the other. -/
theorem Counts.cons {f : Feed} {l₁ : Load} (h : l.Counts e [f] l₁) (h' : l₁.Counts e feeds l') :
    l.Counts e (f :: feeds) l' := by
  refine ⟨?_, ?_, ?_⟩
  · rw [funext (e.entering_cons f feeds)]
    exact h.inputs.trans h'.inputs
  · rw [funext (e.looping_cons f feeds)]
    exact h.loopbacks.trans h'.loopbacks
  · rw [funext (e.switching_cons f feeds)]
    exact h.switchable.trans h'.switchable

/-- Counters that overflow on later feeds do so on all of them. -/
theorem Counts.overflows_cons {f : Feed} {l₁ : Load} (h : l.Counts e [f] l₁)
    (h' : l₁.Overflows e feeds) : l.Overflows e (f :: feeds) := by
  rw [Overflows, funext (e.entering_cons f feeds), funext (e.looping_cons f feeds),
    funext (e.switching_cons f feeds)]
  exact h'.imp h.inputs.overflows (.imp h.loopbacks.overflows h.switchable.overflows)

/-- Counters that overflow on the first feed do so on all of them. -/
theorem Overflows.cons {f : Feed} (h : l.Overflows e [f]) (feeds : List Feed) :
    l.Overflows e (f :: feeds) := by
  rw [Overflows, funext (e.entering_cons f feeds), funext (e.looping_cons f feeds),
    funext (e.switching_cons f feeds)]
  exact h.imp (·.mono fun _ => Nat.le_add_right ..) (.imp (·.mono fun _ => Nat.le_add_right ..)
    (·.mono fun _ => Nat.le_add_right ..))

/-- Counted feeds leave no counter full. -/
theorem Counts.not_overflows (h : l.Counts e feeds l') : ¬ l.Overflows e feeds := by
  rintro (hover | hover | hover)
  · exact h.inputs.not_overflows hover
  · exact h.loopbacks.not_overflows hover
  · exact h.switchable.not_overflows hover

end Load

namespace Balancer

open Epoch

/-- A stored feed is counted, or some counter is full. -/
theorem countFeed_cases (l : Load) {f : Feed} (h : (e.pipes.get? f.pipe).isSome) :
    (∃ l', countFeed e l f = .ok l' ∧ l.Counts e [f] l') ∨
      countFeed e l f = fault .overflow ∧ l.Overflows e [f] := by
  obtain ⟨p, hp⟩ := Option.isSome_iff_exists.1 h
  have hroute : e.route? f.pipe = p.route? := by
    rw [route?, hp]
    rfl
  have hcount : countFeed e l f = p.route?.elim (.ok l) (l.count f) := by
    rw [countFeed, pipe_eq_ok.2 hp]
    dsimp only [bind, Except.bind]
    cases p.route? <;> rfl
  rw [hcount]
  cases hr : p.route? with
  | none => exact .inl ⟨l, rfl, l.counts_unrouted (hroute.trans hr)⟩
  | some r => exact l.count_cases (hroute.trans hr)

/-- The feeds are counted, or some counter gets full, or one of them is not stored. -/
theorem foldlM_countFeed_cases (l : Load) :
    (∃ l', feeds.foldlM (countFeed e) l = .ok l' ∧ l.Counts e feeds l') ∨
      (feeds.foldlM (countFeed e) l = fault .overflow ∧ l.Overflows e feeds) ∨
      ∃ x, feeds.foldlM (countFeed e) l = reject x ∧ ¬ e.Stored (feeds.map (·.pipe)) := by
  induction feeds generalizing l with
  | nil => exact .inl ⟨l, rfl, fun _ => rfl, fun _ => rfl, fun _ => rfl⟩
  | cons f feeds ih =>
    rw [List.foldlM_cons, List.map_cons, Stored, List.forall_mem_cons]
    cases hp : e.pipes.get? f.pipe with
    | none =>
      have hcount : countFeed e l f = reject (.unknownPipe f.pipe) := by
        rw [countFeed, pipe, hp]
        rfl
      rw [hcount]
      exact .inr (.inr ⟨_, rfl, fun h => Bool.false_ne_true h.1⟩)
    | some p =>
      rcases countFeed_cases l (Option.isSome_of_eq_some hp) with ⟨l₁, h₁, hcounts⟩ | ⟨h₁, hover⟩
      · rw [h₁]
        rcases ih l₁ with ⟨l', h₂, hrest⟩ | ⟨h₂, hover⟩ | ⟨x, h₂, hmissing⟩
        · exact .inl ⟨l', h₂, hcounts.cons hrest⟩
        · exact .inr (.inl ⟨h₂, hcounts.overflows_cons hover⟩)
        · exact .inr (.inr ⟨x, h₂, fun h => hmissing h.2⟩)
      · rw [h₁]
        exact .inr (.inl ⟨rfl, hover.cons feeds⟩)

/-- Feeds that can be counted are stored. -/
theorem stored_of_foldlM (h : feeds.foldlM (countFeed e) l = .ok l') :
    e.Stored (feeds.map (·.pipe)) := by
  induction feeds generalizing l with
  | nil => exact List.forall_mem_nil _
  | cons f feeds ih =>
    rw [List.foldlM_cons] at h
    obtain ⟨l₁, hcount, h⟩ := bind_eq_ok.1 h
    obtain ⟨p, hp, _⟩ := bind_eq_ok.1 hcount
    rw [List.map_cons, Stored, List.forall_mem_cons]
    exact ⟨Option.isSome_of_eq_some (pipe_eq_ok.1 hp), ih h⟩

end Balancer

/-! ## All feeds of an op -/

namespace Load

/-- The counters hold the exact numbers of the feeds. -/
structure Shows (l : Load) (e : Epoch) (feeds : List Feed) : Prop where
  inputs : ∀ n, (l.inputs.get n).toNat = e.entering feeds n
  loopbacks : ∀ n, (l.loopbacks.get n).toNat = e.looping feeds n
  switchable : ∀ n, (l.switchable.get n).toNat = e.switching feeds n

private theorem toNat_get_zero (n : Network) : ((⟨0, 0⟩ : PerNetwork UInt32).get n).toNat = 0 := by
  cases n <;> rfl

/-- Counters that start at zero hold the exact numbers. -/
theorem Counts.shows (h : ({} : Load).Counts e feeds l) : l.Shows e feeds where
  inputs n := by rw [h.inputs n, toNat_get_zero, Nat.zero_add]
  loopbacks n := by rw [h.loopbacks n, toNat_get_zero, Nat.zero_add]
  switchable n := by rw [h.switchable n, toNat_get_zero, Nat.zero_add]

/-- Counters that start at zero overflow when a load does not fit. -/
theorem Overflows.not_fits (h : ({} : Load).Overflows e feeds) : ¬ e.LoadFits feeds := by
  intro hfits
  rcases h with ⟨n, hn⟩ | ⟨n, hn⟩ | ⟨n, hn⟩
  all_goals
    have hload := hfits n
    have hswitch := e.switching_le feeds n
    rw [toNat_get_zero, UInt32.size] at hn
    rw [Epoch.loadOn] at hload
    omega

/-- The sum of two counters is the load, if it is a word. -/
theorem Shows.total_eq_ok (h : l.Shows e feeds) {n : Network} {w : UInt32} :
    l.total n = .ok w ↔ w.toNat = e.loadOn feeds n := by
  rw [total, add32, word32_eq_ok, h.inputs, h.loopbacks]
  rfl

/-- The difference of the loads can be taken when they fit. -/
theorem Shows.imbalance_eq (h : l.Shows e feeds) (hfits : e.LoadFits feeds) :
    l.imbalance = .ok (e.pull feeds) := by
  have hword (n : Network) := UInt32.toNat_ofNat_of_lt' (hfits n)
  rw [imbalance, h.total_eq_ok.2 (hword .noc0), h.total_eq_ok.2 (hword .noc1)]
  change Except.ok (((UInt32.ofNat _).toNat : Int) - (UInt32.ofNat _).toNat) = _
  rw [hword, hword, Epoch.pull_eq_loadOn]

/-- Otherwise it is a fault. -/
theorem Shows.imbalance_eq_fault (h : l.Shows e feeds) (hfits : ¬ e.LoadFits feeds) :
    l.imbalance = fault .overflow := by
  have htotal (n : Network) (hn : 2 ^ 32 ≤ e.loadOn feeds n) : l.total n = fault .overflow := by
    refine word32_eq_fault ?_
    rw [h.inputs, h.loopbacks]
    exact hn
  by_cases hzero : e.loadOn feeds .noc0 < 2 ^ 32
  · have hone : ¬ e.loadOn feeds .noc1 < 2 ^ 32 := by
      intro hone
      refine hfits fun n => ?_
      cases n
      · exact hzero
      · exact hone
    rw [imbalance, h.total_eq_ok.2 (UInt32.toNat_ofNat_of_lt' hzero), htotal _ (Nat.not_lt.1 hone)]
    rfl
  · rw [imbalance, htotal _ (Nat.not_lt.1 hzero)]
    rfl

/-- What is to be moved follows from the exact numbers. -/
theorem Shows.excess_eq (h : l.Shows e feeds) (hfits : e.LoadFits feeds) :
    l.excess = .ok (e.excess feeds) := by
  have hswitch (n : Network) : 0 < l.switchable.get n ↔ 0 < e.switching feeds n := by
    rw [UInt32.lt_iff_toNat_lt, h.switchable]
    rfl
  have hzero : 0 < l.switchable.noc0 ↔ 0 < e.switching feeds .noc0 := hswitch .noc0
  have hone : 0 < l.switchable.noc1 ↔ 0 < e.switching feeds .noc1 := hswitch .noc1
  rw [excess, h.imbalance_eq hfits, Epoch.excess]
  simp only [← hzero, ← hone]
  rfl

end Load

namespace Balancer

open Epoch

/-- The load of stored feeds that fit is counted exactly. -/
theorem exists_loadOf (h : e.Stored (feeds.map (·.pipe))) (hfits : e.LoadFits feeds) :
    ∃ l, loadOf e feeds = .ok l ∧ l.Shows e feeds := by
  rcases foldlM_countFeed_cases {} with ⟨l, hl, hcounts⟩ | ⟨_, hover⟩ | ⟨_, _, hmissing⟩
  · exact ⟨l, hl, hcounts.shows⟩
  · exact absurd hfits hover.not_fits
  · exact absurd h hmissing

/-- What is moved in an op whose load fits. -/
theorem loadOf_excess (h : e.Stored (feeds.map (·.pipe))) (hfits : e.LoadFits feeds) :
    (loadOf e feeds >>= Load.excess) = .ok (e.excess feeds) := by
  obtain ⟨l, hl, hshows⟩ := exists_loadOf h hfits
  exact bind_eq_ok.2 ⟨l, hl, hshows.excess_eq hfits⟩

/-- A load that does not fit is a fault, in a counter or in a sum. -/
theorem loadOf_excess_fault (h : e.Stored (feeds.map (·.pipe))) (hfits : ¬ e.LoadFits feeds) :
    (loadOf e feeds >>= Load.excess) = fault .overflow := by
  rcases foldlM_countFeed_cases {} with ⟨l, hl, hcounts⟩ | ⟨hl, _⟩ | ⟨_, _, hmissing⟩
  · rw [loadOf, hl]
    change l.excess = _
    rw [Load.excess, hcounts.shows.imbalance_eq_fault hfits]
    rfl
  · rw [loadOf, hl]
    rfl
  · exact absurd h hmissing

/-- An excess that was found is the one of stored feeds with a load that fits. -/
theorem of_loadOf_excess {x : Option (Network × Nat)}
    (h : (loadOf e feeds >>= Load.excess) = .ok x) : e.LoadFits feeds ∧ x = e.excess feeds := by
  obtain ⟨l, hl, _⟩ := bind_eq_ok.1 h
  have hstored := stored_of_foldlM hl
  by_cases hfits : e.LoadFits feeds
  · exact ⟨hfits, Except.ok.inj (h.symm.trans (loadOf_excess hstored hfits))⟩
  · cases h.symm.trans (loadOf_excess_fault hstored hfits)

end Balancer

end TorusRouting
