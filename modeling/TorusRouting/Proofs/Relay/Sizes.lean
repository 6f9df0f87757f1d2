import Mathlib.Algebra.Order.Group.Nat
import TorusRouting.Relay.Sizes

/-!
# Which sizes are valid

Trial division up to the square root finds one member of every pair of divisors, and the other
member is the quotient. So the valid sizes are the divisors of the granule other than `1`,
together with the multiples of the granule from the second on that divide the bound.
-/

namespace TorusRouting.Relay

/-- Trial division from `i` on lists the divisors from `i` up to the square root. -/
theorem mem_smallDivisors {n i d : Nat} (hi : 0 < i) :
    d ∈ smallDivisors n i ↔ i ≤ d ∧ d ∣ n ∧ d * d ≤ n := by
  fun_induction smallDivisors n i with
  | case1 i h hdvd ih =>
    have hii : i * i ≤ n := (Nat.le_div_iff_mul_le hi).1 h.2
    rw [List.mem_cons, ih (by omega)]
    constructor
    · rintro (rfl | ⟨hle, hd⟩)
      · exact ⟨le_rfl, Nat.dvd_of_mod_eq_zero hdvd, hii⟩
      · exact ⟨by omega, hd⟩
    · rintro ⟨hle, hd⟩
      rcases Nat.eq_or_lt_of_le hle with heq | hlt
      · exact Or.inl heq.symm
      · exact Or.inr ⟨hlt, hd⟩
  | case2 i h hdvd ih =>
    rw [ih (by omega)]
    constructor
    · rintro ⟨hle, hd⟩
      exact ⟨by omega, hd⟩
    · rintro ⟨hle, hd, hdd⟩
      have hne : i ≠ d := by
        rintro rfl
        exact hdvd (Nat.mod_eq_zero_of_dvd hd)
      exact ⟨by omega, hd, hdd⟩
  | case3 i h =>
    simp only [List.not_mem_nil, false_iff]
    rintro ⟨hle, _, hdd⟩
    have hii : i * i ≤ n := (Nat.mul_le_mul hle hle).trans hdd
    exact h ⟨hi, (Nat.le_div_iff_mul_le hi).2 hii⟩

/-- The list of divisors is complete and holds nothing else. A divisor above the root is the
quotient by one below it. -/
theorem mem_divisors {n d : Nat} : d ∈ divisors n ↔ n ≠ 0 ∧ 1 < d ∧ d ∣ n := by
  simp only [divisors, List.mem_filter, List.mem_append, List.mem_map, List.mem_reverse,
    decide_eq_true_eq, bne_iff_ne, ne_eq, mem_smallDivisors Nat.one_pos]
  constructor
  · rintro ⟨⟨_, hd, hdd⟩ | ⟨c, ⟨⟨hc, hcn, hcc⟩, _⟩, rfl⟩, h1⟩
    · have := Nat.mul_le_mul h1.le h1.le
      exact ⟨by omega, h1, hd⟩
    · have := Nat.mul_le_mul hc hc
      exact ⟨by omega, h1, Nat.div_dvd_of_dvd hcn⟩
  · rintro ⟨hn, h1, hd⟩
    refine ⟨?_, h1⟩
    by_cases hdd : d * d ≤ n
    · exact Or.inl ⟨by omega, hd, hdd⟩
    · obtain ⟨c, rfl⟩ := hd
      have hcd : c < d := by
        by_contra hle
        exact hdd (Nat.mul_le_mul_left d (by omega))
      have hc : 0 < c := Nat.pos_of_ne_zero fun h => hn (by rw [h, Nat.mul_zero])
      have hcc : c * c < d * c := Nat.mul_lt_mul_of_pos_right hcd hc
      refine Or.inr ⟨c, ⟨⟨hc, Nat.dvd_mul_left c d, hcc.le⟩, by omega⟩, ?_⟩
      exact Nat.mul_div_cancel d hc

/-! ## The lists are ascending -/

private theorem smallDivisors_pairwise {n i : Nat} : (smallDivisors n i).Pairwise (· < ·) := by
  fun_induction smallDivisors n i with
  | case1 i h _ ih =>
    refine List.pairwise_cons.2 ⟨fun d hd => ?_, ih⟩
    exact ((mem_smallDivisors (by omega)).1 hd).1
  | case2 _ _ _ ih => exact ih
  | case3 => exact .nil

/-- The divisors below the root are ascending, their quotients lie above the root and descend. -/
theorem divisors_pairwise (n : Nat) : (divisors n).Pairwise (· < ·) := by
  refine List.Pairwise.filter _ (List.pairwise_append.2 ⟨smallDivisors_pairwise, ?_, ?_⟩)
  · rw [List.pairwise_map, List.pairwise_reverse]
    refine (smallDivisors_pairwise.filter _).imp_of_mem fun ha hb hlt => ?_
    obtain ⟨_, hadvd, _⟩ := (mem_smallDivisors Nat.one_pos).1 (List.mem_filter.1 ha).1
    obtain ⟨_, hbdvd, hroot⟩ := (mem_smallDivisors Nat.one_pos).1 (List.mem_filter.1 hb).1
    have hpos := Nat.mul_pos (Nat.zero_lt_of_lt hlt) (Nat.zero_lt_of_lt hlt)
    exact (Nat.div_lt_div_left (by omega) hbdvd hadvd).2 hlt
  · intro a ha b hb
    obtain ⟨_, _, haroot⟩ := (mem_smallDivisors Nat.one_pos).1 ha
    obtain ⟨d, hd, rfl⟩ := List.mem_map.1 hb
    obtain ⟨hd, hne⟩ := List.mem_filter.1 (List.mem_reverse.1 hd)
    obtain ⟨hdpos, ⟨q, rfl⟩, hroot⟩ := (mem_smallDivisors Nat.one_pos).1 hd
    rw [Nat.mul_div_cancel_left q hdpos]
    have hne : d * d ≠ d * q := by simpa using hne
    have hdq : d < q := Nat.lt_of_mul_lt_mul_left (Nat.lt_of_le_of_ne hroot hne)
    have hqq : d * q < q * q := Nat.mul_lt_mul_of_pos_right hdq (by omega)
    exact Nat.mul_self_lt_mul_self_iff.1 (haroot.trans_lt hqq)

/-- Multiplying the divisors of a quotient lists the multiples that divide the bound. -/
theorem mem_multiples {granule bound s : Nat} :
    s ∈ (if bound % granule = 0 then (divisors (bound / granule)).map (granule * ·) else []) ↔
      0 < granule ∧ ∃ k, 2 ≤ k ∧ s = k * granule ∧ s ∣ bound ∧ s ≤ bound := by
  by_cases hb : granule ∣ bound
  · obtain ⟨q, rfl⟩ := hb
    rw [if_pos (Nat.mul_mod_right granule q)]
    rcases Nat.eq_zero_or_pos granule with rfl | hg
    · simp only [Nat.zero_mul, Nat.zero_div, List.mem_map, mem_divisors, ne_eq, not_true_eq_false,
        false_and, exists_false, Nat.lt_irrefl]
    · simp only [Nat.mul_div_cancel_left q hg, List.mem_map, mem_divisors, hg, true_and]
      constructor
      · rintro ⟨k, ⟨hq, hk, hkq⟩, rfl⟩
        have hdvd : granule * k ∣ granule * q := Nat.mul_dvd_mul_left granule hkq
        exact ⟨k, hk, Nat.mul_comm .., hdvd,
          Nat.le_of_dvd (Nat.mul_pos hg (Nat.pos_of_ne_zero hq)) hdvd⟩
      · rintro ⟨k, hk, rfl, hdvd, hle⟩
        rw [Nat.mul_comm k] at hdvd hle
        have hpos := Nat.mul_pos hg (show 0 < k by omega)
        have hq : q ≠ 0 := by
          rintro rfl
          omega
        exact ⟨k, ⟨hq, hk, Nat.dvd_of_mul_dvd_mul_left hg hdvd⟩, Nat.mul_comm ..⟩
  · rw [if_neg fun h => hb (Nat.dvd_of_mod_eq_zero h)]
    simp only [List.not_mem_nil, false_iff]
    rintro ⟨_, k, _, rfl, hdvd, _⟩
    exact hb (Nat.dvd_trans (Nat.dvd_mul_left granule k) hdvd)

/-- A size is valid when it divides the granule and is not `1`, or is a multiple of the granule
from the second on that divides the bound. -/
theorem mem_validSizes {granule total latency s : Nat} :
    s ∈ validSizes granule total latency ↔ 0 < granule ∧ (1 < s ∧ s ∣ granule ∨
      ∃ k, 2 ≤ k ∧ s = k * granule ∧ s ∣ min total latency ∧ s ≤ min total latency) := by
  simp only [validSizes, List.mem_append, mem_divisors, mem_multiples, ← Nat.pos_iff_ne_zero,
    and_or_left]

/-- Sizes are listed in order, each once. -/
theorem validSizes_pairwise (granule total latency : Nat) :
    (validSizes granule total latency).Pairwise (· < ·) := by
  refine List.pairwise_append.2 ⟨divisors_pairwise granule, ?_, fun a ha b hb => ?_⟩
  · split
    · refine List.pairwise_map.2 ((divisors_pairwise _).imp_of_mem fun ha _ hlt => ?_)
      have hquotient := (mem_divisors.1 ha).1
      exact Nat.mul_lt_mul_of_pos_left hlt (Nat.pos_of_ne_zero fun hg => hquotient (by simp [hg]))
    · exact .nil
  · obtain ⟨hg, k, hk, rfl, _⟩ := mem_multiples.1 hb
    have hle := Nat.le_of_dvd hg (mem_divisors.1 ha).2.2
    have hmul := Nat.mul_le_mul_right granule hk
    omega

/-- No valid size exceeds both the granule and the tiles of the epoch. -/
theorem le_of_mem_validSizes {granule total latency s : Nat}
    (h : s ∈ validSizes granule total latency) : s ≤ max granule total := by
  obtain ⟨hg, ⟨_, hd⟩ | ⟨_, _, _, _, hle⟩⟩ := mem_validSizes.1 h
  · exact (Nat.le_of_dvd hg hd).trans (Nat.le_max_left ..)
  · exact (hle.trans (Nat.min_le_left ..)).trans (Nat.le_max_right ..)

/-- A valid size above the granule is a multiple of it that divides the bound. -/
theorem multiple_of_mem_validSizes {granule total latency s : Nat}
    (h : s ∈ validSizes granule total latency) (hs : granule < s) :
    ∃ k, 2 ≤ k ∧ s = k * granule ∧ s ∣ min total latency ∧ s ≤ min total latency := by
  obtain ⟨hg, ⟨_, hd⟩ | hk⟩ := mem_validSizes.1 h
  · exact absurd (Nat.le_of_dvd hg hd) (by omega)
  · exact hk

end TorusRouting.Relay
