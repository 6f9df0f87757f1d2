import TorusRouting.Proofs.L1.Growth
import TorusRouting.Proofs.Relay.Rounds
import TorusRouting.Proofs.Relay.View

/-!
# What a refusal means

A ledger refuses exactly what does not fit, and what it has left only shrinks. The valid sizes are
ascending, so a candidate that was refused its next size can pay for no larger one either, then or
later. Greedy growth stops when every candidate was refused or is at its largest size: after it no
candidate can grow any more, and further growth asks in vain.
-/

namespace TorusRouting

open Relay

namespace Ledger

/-- With less than the largest word left, a reservation is refused because it does not fit, or paid
to the byte. -/
theorem reserve_cases {l : Ledger} {core : Core} (hroom : (l.available core).toNat < maxWord64)
    (cost : Nat) :
    (∃ x, l.reserve core (clamp64 cost) = (.error x, l) ∧ (l.available core).toNat < cost) ∨
      ∃ l', l.reserve core (clamp64 cost) = (.ok (), l') ∧
        (l'.available core).toNat + cost = (l.available core).toNat := by
  rcases hr : l.reserve core (clamp64 cost) with ⟨x | u, l'⟩
  · left
    cases reserve_eq_error hr
    refine ⟨x, rfl, ?_⟩
    rw [reserve] at hr
    split at hr
    · rename_i hlt
      rw [UInt64.lt_iff_toNat_lt, toNat_clamp64] at hlt
      omega
    · cases hr
  · right
    obtain ⟨hfits, hcapacity, hcount⟩ := reserve_eq_ok hr
    have hleft := l.toNat_available core
    have hword := l.capacity.toNat_lt
    have hused := (l.allocated core).toNat_lt
    have hcost : (clamp64 cost).toNat = cost := by
      rw [toNat_clamp64] at hfits ⊢
      omega
    refine ⟨l', rfl, ?_⟩
    rw [toNat_available, hcapacity, hcount, if_pos rfl, UInt64.toNat_add, hcost]
    rw [hcost] at hfits
    omega

end Ledger

namespace Relay

namespace Candidate

/-- The bytes left pay for no larger valid size. -/
def Stuck (c : Candidate) (left : Nat) : Prop :=
  ∀ s ∈ c.sizes, c.allocated < s → left < (s - c.allocated) * c.tileBytes

variable {c : Candidate} {left left' : Nat}

/-- A stuck candidate is stuck with fewer bytes left, too. -/
theorem Stuck.mono (h : c.Stuck left) (hle : left' ≤ left) : c.Stuck left' :=
  fun s hs hlt => hle.trans_lt (h s hs hlt)

private theorem stuck_of_largest (h : c.nextSize? = none) (left : Nat) : c.Stuck left := by
  intro s hs hlt
  have hnone := List.find?_eq_none.1 h s hs
  exact absurd (decide_eq_true hlt) hnone

/-- The next size is the smallest one above the allocation. -/
theorem nextSize?_le (hsizes : c.sizes.Pairwise (· < ·)) {next s : Nat}
    (h : c.nextSize? = some next) (hs : s ∈ c.sizes) (hlt : c.allocated < s) : next ≤ s := by
  obtain ⟨_, before, after, heq, hbefore⟩ := List.find?_eq_some_iff_append.1 h
  rw [heq, List.pairwise_append, List.pairwise_cons] at hsizes
  rw [heq] at hs
  rcases List.mem_append.1 hs with hs | hs
  · have hskipped := hbefore s hs
    simp only [Bool.not_eq_true', decide_eq_false_iff_not] at hskipped
    exact absurd hlt hskipped
  · rcases List.mem_cons.1 hs with rfl | hs
    · exact le_rfl
    · exact (hsizes.2.1.1 s hs).le

/-- A refusal of the next size stands for all larger ones. -/
theorem stuck_of_refused (hsizes : c.sizes.Pairwise (· < ·)) {next : Nat}
    (h : c.nextSize? = some next) (hrefused : left < (next - c.allocated) * c.tileBytes) :
    c.Stuck left := by
  intro s hs hlt
  have hle := nextSize?_le hsizes h hs hlt
  exact hrefused.trans_le (Nat.mul_le_mul_right _ (Nat.sub_le_sub_right hle _))

variable {l : Ledger}

/-- Against a ledger, a move is refused because it does not fit, or paid to the byte. -/
theorem tryGrow_cases (hroom : (l.available c.core).toNat < maxWord64) {t : Nat}
    (hlt : c.allocated < t) :
    c.tryGrow t l = (none, l) ∧
        (l.available c.core).toNat < (t - c.allocated) * c.tileBytes ∨
      ∃ l', c.tryGrow t l = (some ⟨c.id, c.allocated, t, c.cost t⟩, l') ∧
        (l'.available c.core).toNat + (t - c.allocated) * c.tileBytes =
          (l.available c.core).toNat := by
  rw [tryGrow, if_neg (Nat.not_le.2 hlt)]
  dsimp only
  rcases Ledger.reserve_cases hroom ((t - c.allocated) * c.tileBytes) with
    ⟨x, hr, hrefused⟩ | ⟨l', hr, hpaid⟩
  · have hr : ResourceModel.reserve l c.core _ = _ := hr
    rw [hr]
    exact Or.inl ⟨rfl, hrefused⟩
  · have hr : ResourceModel.reserve l c.core _ = _ := hr
    rw [hr]
    exact Or.inr ⟨l', rfl, hpaid⟩

/-- Asked for sizes in descending order, a ledger grants the largest one that fits. -/
theorem growToFirst_cases (hroom : (l.available c.core).toNat < maxWord64) {sizes : List Nat}
    (hsizes : sizes.Pairwise (· > ·)) (hlarger : ∀ t ∈ sizes, c.allocated < t) :
    c.growToFirst sizes l = (none, l) ∧
        (∀ t ∈ sizes, (l.available c.core).toNat < (t - c.allocated) * c.tileBytes) ∨
      ∃ t l', c.growToFirst sizes l = (some ⟨c.id, c.allocated, t, c.cost t⟩, l') ∧
        (l'.available c.core).toNat + (t - c.allocated) * c.tileBytes =
          (l.available c.core).toNat ∧ c.allocated < t ∧
        ∀ s ∈ sizes, t < s → (l.available c.core).toNat < (s - c.allocated) * c.tileBytes := by
  induction sizes with
  | nil => exact Or.inl ⟨rfl, List.forall_mem_nil _⟩
  | cons t sizes ih =>
    rw [List.pairwise_cons] at hsizes
    rw [List.forall_mem_cons] at hlarger
    rw [growToFirst]
    rcases tryGrow_cases hroom hlarger.1 with ⟨heq, hrefused⟩ | ⟨l', heq, hpaid⟩
    · rw [heq]
      rcases ih hsizes.2 hlarger.2 with ⟨hnone, hall⟩ | ⟨t', l', hsome, hpaid, hlt, hall⟩
      · exact Or.inl ⟨hnone, List.forall_mem_cons.2 ⟨hrefused, hall⟩⟩
      · exact Or.inr ⟨t', l', hsome, hpaid, hlt, List.forall_mem_cons.2 ⟨fun _ => hrefused, hall⟩⟩
    · rw [heq]
      refine Or.inr ⟨t, l', rfl, hpaid, hlarger.1, List.forall_mem_cons.2 ⟨?_, fun s hs hlt => ?_⟩⟩
      · exact fun hlt => absurd hlt (Nat.lt_irrefl t)
      · exact absurd hlt (Nat.lt_asymm (hsizes.1 s hs))

end Candidate

namespace Growth

variable {g g' : Growth Ledger} {core : Core} {cap i : Nat}

/-- Candidates of a core with ascending sizes, and less than the largest word left there. -/
structure Steady (g : Growth Ledger) (core : Core) : Prop where
  onCore : g.OnCore core
  ascending : ∀ c ∈ g.cands, c.sizes.Pairwise (· < ·)
  room : (g.model.available core).toNat < maxWord64

omit cap in
/-- Settling an attempt that spends no more than there is keeps the growth steady. -/
theorem Steady.settle (h : g.Steady core) {c : Candidate} (hc : g.cands[i]? = some c)
    {r : Option GrowthStep × Ledger}
    (hleft : (r.2.available core).toNat ≤ (g.model.available core).toNat) :
    (g.settle i c r).Steady core := by
  have hcm := List.mem_of_getElem? hc
  refine ⟨h.onCore.settle (h.onCore c hcm) i r, fun d hd => ?_, hleft.trans_lt h.room⟩
  rcases List.mem_or_eq_of_mem_set hd with hd | rfl
  · exact h.ascending d hd
  · rw [Candidate.sizes_after]
    exact h.ascending c hcm

/-! ## Greedy growth -/

/-- Growth on a core whose refused candidates can pay for no larger size. -/
structure Settling (g : Growth Ledger) (core : Core) : Prop extends Steady g core where
  stuck : ∀ c ∈ g.cands, c.exhausted = true → c.Stuck (g.model.available core).toNat

/-- A visit changes nothing, drops a candidate that is stuck, or pays for the next size. -/
theorem Settling.visit_cases (h : g.Settling core) (cap i : Nat) :
    visit cap g i = g ∨ ∃ c, g.cands[i]? = some c ∧ c.exhausted = false ∧
      (c.Stuck (g.model.available core).toNat ∧ visit cap g i = g.settle i c (none, g.model) ∨
        ∃ next l', c.nextSize? = some next ∧ next ≤ cap ∧
          (l'.available core).toNat + (next - c.allocated) * c.tileBytes =
            (g.model.available core).toNat ∧
          visit cap g i = g.settle i c (some ⟨c.id, c.allocated, next, c.cost next⟩, l')) := by
  obtain ⟨heq, _⟩ | ⟨c, hc, hactive, ⟨hnone, heq⟩ | ⟨next, hnext, hle, heq⟩⟩ :=
    Growth.visit_cases cap g i
  · exact Or.inl heq
  · exact Or.inr ⟨c, hc, hactive, Or.inl ⟨Candidate.stuck_of_largest hnone _, heq⟩⟩
  · have hcm := List.mem_of_getElem? hc
    have hcore := h.onCore c hcm
    subst hcore
    have hlt := (Candidate.nextSize?_eq_some hnext).2
    refine Or.inr ⟨c, hc, hactive, ?_⟩
    rcases Candidate.tryGrow_cases h.room hlt with ⟨hr, hrefused⟩ | ⟨l', hr, hpaid⟩
    · rw [hr] at heq
      exact Or.inl ⟨Candidate.stuck_of_refused (h.ascending c hcm) hnext hrefused, heq⟩
    · rw [hr] at heq
      exact Or.inr ⟨next, l', hnext, hle, hpaid, heq⟩

omit cap in
/-- Settling an attempt that leaves no more bytes keeps all candidates but one. -/
theorem Settling.settle (h : g.Settling core) {c : Candidate} (hc : g.cands[i]? = some c)
    {r : Option GrowthStep × Ledger}
    (hleft : (r.2.available core).toNat ≤ (g.model.available core).toNat)
    (hstuck : r.1 = none → c.Stuck (r.2.available core).toNat) (hactive : c.exhausted = false) :
    (g.settle i c r).Settling core := by
  refine ⟨h.toSteady.settle hc hleft, fun d hd hexhausted => ?_⟩
  rcases List.mem_or_eq_of_mem_set hd with hd | rfl
  · exact (h.stuck d hd hexhausted).mono hleft
  · cases hr : r.1 with
    | none => exact hstuck hr
    | some s =>
      rw [hr] at hexhausted
      exact absurd (hactive.symm.trans hexhausted) Bool.false_ne_true

/-- A visit keeps the growth settling. -/
theorem Settling.visit (h : g.Settling core) (cap i : Nat) : (visit cap g i).Settling core := by
  obtain heq | ⟨c, hc, hactive, ⟨hstuck, heq⟩ | ⟨next, l', _, _, hpaid, heq⟩⟩ :=
    h.visit_cases cap i
  · rw [heq]
    exact h
  · rw [heq]
    exact h.settle hc le_rfl (fun _ => hstuck) hactive
  · rw [heq]
    refine h.settle hc ?_ (fun hnone => by cases hnone) hactive
    change (l'.available core).toNat ≤ _
    omega

/-- No candidate is left that could pay for a larger size. -/
theorem Settling.greedy_stuck (h : g.Settling core) (cap : Nat) :
    ∀ c ∈ (greedy cap g).cands, c.Stuck ((greedy cap g).model.available core).toNat := by
  obtain ⟨⟨_, hend⟩, hdone⟩ := greedy_invariant (P := fun _ g => g.Settling core)
    (fun cap g i h => h.visit cap i) (fun _ _ _ h _ _ => h) cap h
  intro c hc
  rcases hdone c hc with hexhausted | hlargest
  · exact hend.stuck c hc hexhausted
  · exact Candidate.stuck_of_largest hlargest _

omit cap in
/-- A lone candidate takes the largest size it can pay for. A larger size would cost what was paid
and the step from there. -/
theorem single_stuck {c : Candidate} {l : Ledger} (hsizes : c.sizes.Pairwise (· < ·))
    (hroom : (l.available c.core).toNat < maxWord64) :
    ∀ d ∈ (single c l).cands, d.Stuck ((single c l).model.available c.core).toNat := by
  have hdescending : c.largerSizes.Pairwise (· > ·) :=
    List.pairwise_reverse.2 (hsizes.filter _)
  have hmem (s : Nat) : s ∈ c.largerSizes ↔ s ∈ c.sizes ∧ c.allocated < s := by
    simp [Candidate.largerSizes]
  intro d hd
  rw [single] at hd ⊢
  rcases Candidate.growToFirst_cases hroom hdescending fun t ht => ((hmem t).1 ht).2 with
    ⟨hr, hall⟩ | ⟨t, l', hr, hpaid, hlt, hall⟩
  · rw [hr] at hd ⊢
    cases List.mem_singleton.1 hd
    exact fun s hs hlt => hall s ((hmem s).2 ⟨hs, hlt⟩)
  · rw [hr] at hd ⊢
    cases List.mem_singleton.1 hd
    intro s hs hts
    have hcost := hall s ((hmem s).2 ⟨hs, hlt.trans hts⟩) hts
    have hsplit : (s - c.allocated) * c.tileBytes =
        (s - t) * c.tileBytes + (t - c.allocated) * c.tileBytes := by
      rw [← Nat.add_mul]
      congr 1
      change t < s at hts
      omega
    change (l'.available c.core).toNat < (s - t) * c.tileBytes
    omega

/-- Candidates of a core, none of them refused yet. -/
structure Fresh (core : Core) (cands : List Candidate) (l : Ledger) : Prop where
  onCore : ∀ c ∈ cands, c.core = core
  ascending : ∀ c ∈ cands, c.sizes.Pairwise (· < ·)
  active : ∀ c ∈ cands, c.exhausted = false
  room : (l.available core).toNat < maxWord64

omit cap i in
/-- A growth that begins is settling. -/
theorem Fresh.settling {cands : List Candidate} {l : Ledger} (h : Fresh core cands l) :
    (⟨cands, l, []⟩ : Growth Ledger).Settling core := by
  refine ⟨⟨h.onCore, h.ascending, h.room⟩, fun c hc hexhausted => ?_⟩
  exact absurd ((h.active c hc).symm.trans hexhausted) Bool.false_ne_true

omit cap i in
/-- After growth on a core no candidate can pay for a larger size. -/
theorem Fresh.run_stuck {cands : List Candidate} {l : Ledger} (h : Fresh core cands l) :
    ∀ c ∈ (run .greedy core cands l).2.cands,
      c.Stuck ((run .greedy core cands l).2.model.available core).toNat := by
  cases cands with
  | nil => exact h.settling.greedy_stuck _
  | cons c rest =>
    cases rest with
    | nil =>
      cases h.onCore c (List.mem_singleton_self c)
      exact single_stuck (h.ascending c (List.mem_singleton_self c)) h.room
    | cons d rest => exact h.settling.greedy_stuck _

/-! ## Growth with nothing left to grow -/

omit cap i in
/-- Candidates that cannot grow are asked for in vain, in whatever order. -/
theorem History.quiet (h : History g g') (hcore : g.OnCore core)
    (hroom : (g.model.available core).toNat < maxWord64)
    (hstuck : ∀ c ∈ g.cands, c.Stuck (g.model.available core).toNat) :
    g'.model = g.model ∧ g'.log = g.log := by
  have hkeeps : g'.model = g.model ∧ g'.log = g.log ∧ g'.OnCore core ∧
      ∀ c ∈ g'.cands, c.Stuck (g.model.available core).toNat := by
    apply h.invariant (P := fun g' => g'.model = g.model ∧ g'.log = g.log ∧ g'.OnCore core ∧
      ∀ c ∈ g'.cands, c.Stuck (g.model.available core).toNat)
    · exact ⟨rfl, rfl, hcore, hstuck⟩
    · rintro g₁ i c r ⟨hmodel, hlog, honCore, hall⟩ hc hr
      have hcm := List.mem_of_getElem? hc
      rcases hr.ledger_cases with rfl | ⟨t, l', ht, hlt, hres, _⟩
      · refine ⟨hmodel, ?_, honCore.settle (honCore c hcm) i _, fun d hd => ?_⟩
        · rw [Growth.settle, Option.toList_none, List.append_nil, hlog]
        · rcases List.mem_or_eq_of_mem_set hd with hd | rfl
          · exact hall d hd
          · exact hall c hcm
      · obtain ⟨hfits, _⟩ := Ledger.reserve_eq_ok hres
        have hcost := hall c hcm t ht hlt
        rw [honCore c hcm, hmodel, Candidate.cost, toNat_clamp64] at hfits
        omega
  exact ⟨hkeeps.1, hkeeps.2.1⟩

end Growth

end Relay

end TorusRouting
