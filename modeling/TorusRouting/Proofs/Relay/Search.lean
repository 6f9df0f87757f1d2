import Mathlib.Data.List.Destutter
import Mathlib.Data.List.Sort
import TorusRouting.Proofs.Outcome
import TorusRouting.Proofs.Relay.Sizes
import TorusRouting.Proofs.StableSort

/-!
# Searching the valid sizes on machine words

The valid sizes can be searched without leaving 64-bit words: trial division yields divisors in
pairs, which are sorted and freed of repetitions, and then the multiples of the granule are tried
one after the other. Every division is by a positive word, and only a multiple can be out of range,
which ends the search. What is found are the valid sizes.
-/

namespace TorusRouting.Relay

/-- The 64-bit word of `n`, if there is one. -/
def checked64 (n : Nat) : Option UInt64 :=
  if n < UInt64.size then some (UInt64.ofNat n) else none

private theorem checked64_eq_some_iff {n : Nat} {w : UInt64} :
    checked64 n = some w ↔ w.toNat = n := by
  unfold checked64
  split
  · rename_i hn
    rw [Option.some_inj, ← UInt64.toNat_inj, UInt64.toNat_ofNat_of_lt' hn, eq_comm]
  · rename_i hn
    have hw := w.toNat_lt_size
    constructor
    · intro h
      cases h
    · intro h
      omega

private theorem checked64_eq_none_iff {n : Nat} : checked64 n = none ↔ UInt64.size ≤ n := by
  simp [checked64]

private theorem rem_eq_zero_iff {a b : UInt64} : a % b = 0 ↔ b.toNat ∣ a.toNat := by
  rw [← UInt64.toNat_inj, UInt64.toNat_mod, UInt64.toNat_zero, Nat.dvd_iff_mod_eq_zero]

/-! ## Pairs of divisors -/

/-- Trial division from `i` on: every divisor up to the square root, followed by its quotient. -/
def divisorPairs (granule i : UInt64) : Outcome (List UInt64) :=
  if i = 0 then fault .divisionByZero
  else if _hi : granule / i < i then .ok []
  else match _hnext : checked64 (i.toNat + 1) with
    | none => fault .overflow
    | some next => do
      let rest ← divisorPairs granule next
      return if granule % i = 0 then i :: granule / i :: rest else rest
termination_by granule.toNat + 1 - i.toNat
decreasing_by
  have hquotient : granule.toNat / i.toNat ≤ granule.toNat := Nat.div_le_self ..
  rw [UInt64.lt_iff_toNat_lt, UInt64.toNat_div] at _hi
  rw [checked64_eq_some_iff] at _hnext
  omega

/-- Trial division does not fail. It lists the divisors up to the root and their quotients. A
divisor is tried only up to the root, so the next one is a word as well. -/
theorem exists_divisorPairs (granule i : UInt64) (hi : 0 < i.toNat) :
    ∃ pairs, divisorPairs granule i = .ok pairs ∧ ∀ w : UInt64, w ∈ pairs ↔
      ∃ d ∈ smallDivisors granule.toNat i.toNat, w.toNat = d ∨ w.toNat = granule.toNat / d := by
  fun_induction divisorPairs granule i with
  | case1 => simp at hi
  | case2 i _ hroot =>
    rw [UInt64.lt_iff_toNat_lt, UInt64.toNat_div] at hroot
    refine ⟨[], rfl, fun w => ?_⟩
    rw [smallDivisors, dif_neg (by omega)]
    simp
  | case3 i _ hroot hnone =>
    rw [UInt64.lt_iff_toNat_lt, UInt64.toNat_div, Nat.not_lt, Nat.le_div_iff_mul_le hi] at hroot
    rw [checked64_eq_none_iff, UInt64.size] at hnone
    have hg := granule.toNat_lt
    have hsquare := Nat.mul_le_mul_left i.toNat (show 2 ≤ i.toNat by omega)
    omega
  | case4 i _ hroot next hnext ih =>
    rw [UInt64.lt_iff_toNat_lt, UInt64.toNat_div] at hroot
    rw [checked64_eq_some_iff] at hnext
    obtain ⟨rest, hrest, hmem⟩ := ih (by omega)
    refine ⟨_, bind_eq_ok.2 ⟨rest, hrest, rfl⟩, fun w => ?_⟩
    have hdvd : granule % i = 0 ↔ granule.toNat % i.toNat = 0 := by
      rw [rem_eq_zero_iff, Nat.dvd_iff_mod_eq_zero]
    rw [smallDivisors, dif_pos (by omega), ← hnext]
    by_cases h : granule % i = 0
    · rw [if_pos h, if_pos (hdvd.1 h), List.mem_cons, List.mem_cons, hmem, List.exists_mem_cons_iff,
        ← UInt64.toNat_inj, ← UInt64.toNat_inj, UInt64.toNat_div, or_assoc]
    · rw [if_neg h, if_neg (mt hdvd.2 h), hmem]

/-- The divisors of the granule other than `1`, sorted and freed of repetitions. -/
def searchDivisors (granule : UInt64) : Outcome (List UInt64) := do
  let pairs ← divisorPairs granule 1
  return (stableSort (· < ·) (pairs.filter (1 < ·))).destutter (· ≠ ·)

/-- Both members of a pair are found, and a root only once. -/
theorem mem_divisors_iff_pair {n d : Nat} :
    d ∈ divisors n ↔ 1 < d ∧ ∃ c ∈ smallDivisors n 1, d = c ∨ d = n / c := by
  simp only [divisors, List.mem_filter, List.mem_append, List.mem_map, List.mem_reverse,
    decide_eq_true_eq, bne_iff_ne, ne_eq, and_comm (b := 1 < d)]
  refine and_congr_right fun _ => ⟨?_, ?_⟩
  · rintro (hd | ⟨c, ⟨hc, _⟩, rfl⟩)
    · exact ⟨d, hd, Or.inl rfl⟩
    · exact ⟨c, hc, Or.inr rfl⟩
  · rintro ⟨c, hc, rfl | rfl⟩
    · exact Or.inl hc
    · by_cases hroot : c * c = n
      · have hpos := ((mem_smallDivisors Nat.one_pos).1 hc).1
        rw [← hroot, Nat.mul_div_cancel c hpos, hroot]
        exact Or.inl hc
      · exact Or.inr ⟨c, ⟨hc, hroot⟩, rfl⟩

/-- Sorting and dropping repeated neighbours leaves every word once, in ascending order. -/
theorem destutter_stableSort_pairwise (l : List UInt64) :
    ((stableSort (· < ·) l).destutter (· ≠ ·)).Pairwise (· < ·) ∧
      ∀ w, w ∈ (stableSort (· < ·) l).destutter (· ≠ ·) ↔ w ∈ l := by
  have hless : ∀ x ∈ l, ∀ y ∈ l, decide (x < y) = true ↔ x.toNat < y.toNat := by
    intro x _ y _
    rw [decide_eq_true_eq, UInt64.lt_iff_toNat_lt]
  have hsorted : (stableSort (· < ·) l).Pairwise (· ≤ ·) := by
    refine (stableSort_pairwise hless (P := fun _ _ => True)
      (List.pairwise_of_forall fun _ _ => trivial)).imp fun hxy => ?_
    rw [UInt64.le_iff_toNat_le]
    omega
  rw [hsorted.destutter_eq_dedup]
  refine ⟨?_, fun w => ?_⟩
  · refine ((hsorted.sublist (List.dedup_sublist _)).and (List.nodup_dedup _)).imp fun hxy => ?_
    exact UInt64.lt_of_le_of_ne hxy.1 hxy.2
  · rw [List.mem_dedup, (stableSort_perm _ l).mem_iff]

private theorem exists_searchDivisors (granule : UInt64) :
    ∃ words, searchDivisors granule = .ok words ∧
      words.map (·.toNat) = divisors granule.toNat := by
  obtain ⟨pairs, hpairs, hmem⟩ := exists_divisorPairs granule 1 Nat.one_pos
  obtain ⟨hsorted, hkept⟩ := destutter_stableSort_pairwise (pairs.filter (1 < ·))
  refine ⟨_, bind_eq_ok.2 ⟨pairs, hpairs, rfl⟩, ?_⟩
  refine List.Pairwise.eq_of_mem_iff
    (List.pairwise_map.2 (hsorted.imp UInt64.lt_iff_toNat_lt.1)) (divisors_pairwise _) fun d => ?_
  have hone : (1 : UInt64).toNat = 1 := rfl
  simp only [List.mem_map, hkept]
  simp only [List.mem_filter, decide_eq_true_eq, hmem, mem_divisors_iff_pair,
    UInt64.lt_iff_toNat_lt, hone]
  constructor
  · rintro ⟨w, ⟨hpair, hw⟩, rfl⟩
    exact ⟨hw, hpair⟩
  · rintro ⟨hd, c, hc, hpair⟩
    have hle : d ≤ granule.toNat := by
      rcases hpair with rfl | rfl
      · exact Nat.le_trans (Nat.le_mul_self d) ((mem_smallDivisors Nat.one_pos).1 hc).2.2
      · exact Nat.div_le_self ..
    have hword := UInt64.toNat_ofNat_of_lt' (Nat.lt_of_le_of_lt hle granule.toNat_lt_size)
    exact ⟨UInt64.ofNat d, by rw [hword]; exact ⟨⟨c, hc, hpair⟩, hd⟩, hword⟩

/-! ## Multiples -/

/-- Multiples of a positive granule, tried one after the other, that divide the bound. The search
ends above the bound, or where the next multiple is out of range. -/
def searchMultiples (granule bound : UInt64) (hg : 0 < granule.toNat) :
    Option UInt64 → Outcome (List UInt64)
  | none => .ok []
  | some size =>
    if _hs : bound < size then .ok []
    else if size = 0 then fault .divisionByZero
    else do
      let rest ← searchMultiples granule bound hg (checked64 (size.toNat + granule.toNat))
      return if bound % size = 0 then size :: rest else rest
termination_by next => next.elim 0 fun size => bound.toNat + 1 - size.toNat
decreasing_by
  rw [UInt64.lt_iff_toNat_lt] at _hs
  cases hnext : checked64 (size.toNat + granule.toNat) with
  | none =>
    simp only [Option.elim]
    omega
  | some next =>
    rw [checked64_eq_some_iff] at hnext
    simp only [Option.elim]
    omega

/-- The numbers from `n` on in steps of the granule are `n` and those from the next step on. -/
theorem multiples_from_iff {granule bound n s : Nat} (hn : n ≤ bound) :
    (∃ k, s = n + k * granule ∧ s ∣ bound ∧ s ≤ bound) ↔
      s = n ∧ n ∣ bound ∨ ∃ k, s = n + granule + k * granule ∧ s ∣ bound ∧ s ≤ bound := by
  constructor
  · rintro ⟨k, rfl, hs⟩
    cases k with
    | zero => exact Or.inl ⟨by omega, by simpa using hs.1⟩
    | succ k => exact Or.inr ⟨k, by rw [Nat.add_one_mul]; omega, hs⟩
  · rintro (⟨rfl, hs⟩ | ⟨k, rfl, hs⟩)
    · exact ⟨0, by omega, hs, hn⟩
    · exact ⟨k + 1, by rw [Nat.add_one_mul]; omega, hs⟩

private theorem not_multiple_of_lt {granule bound n s : Nat} (hn : bound < n) :
    ¬ ∃ k, s = n + k * granule ∧ s ∣ bound ∧ s ≤ bound := by
  rintro ⟨k, rfl, _, hle⟩
  omega

/-- From `n` on, the multiples that divide the bound are found in ascending order. -/
theorem exists_searchMultiples (granule bound : UInt64) (hg : 0 < granule.toNat) (n : Nat)
    (hn : 0 < n) :
    ∃ words, searchMultiples granule bound hg (checked64 n) = .ok words ∧
      (words.map (·.toNat)).Pairwise (· < ·) ∧
      ∀ s, s ∈ words.map (·.toNat) ↔
        ∃ k, s = n + k * granule.toNat ∧ s ∣ bound.toNat ∧ s ≤ bound.toNat := by
  generalize hnext : checked64 n = next
  fun_induction searchMultiples granule bound hg next generalizing n with
  | case1 =>
    rw [checked64_eq_none_iff] at hnext
    have habove : bound.toNat < n := Nat.lt_of_lt_of_le bound.toNat_lt_size hnext
    exact ⟨[], rfl, .nil, fun s => iff_of_false List.not_mem_nil (not_multiple_of_lt habove)⟩
  | case2 size hsize =>
    rw [checked64_eq_some_iff] at hnext
    have habove : bound.toNat < n := hnext ▸ UInt64.lt_iff_toNat_lt.1 hsize
    exact ⟨[], rfl, .nil, fun s => iff_of_false List.not_mem_nil (not_multiple_of_lt habove)⟩
  | case3 =>
    rw [checked64_eq_some_iff, UInt64.toNat_zero] at hnext
    omega
  | case4 size hsize _ ih =>
    rw [checked64_eq_some_iff] at hnext
    rw [UInt64.lt_iff_toNat_lt, Nat.not_lt] at hsize
    subst hnext
    obtain ⟨rest, hrest, hsorted, hmem⟩ := ih (size.toNat + granule.toNat) (by omega) rfl
    have hlarger : ∀ s ∈ rest.map (·.toNat), size.toNat < s := by
      intro s hs
      obtain ⟨k, rfl, _⟩ := (hmem s).1 hs
      omega
    refine ⟨_, bind_eq_ok.2 ⟨rest, hrest, rfl⟩, ?_⟩
    simp only [multiples_from_iff hsize, ← hmem]
    by_cases h : bound % size = 0
    · rw [if_pos h, List.map_cons]
      refine ⟨List.pairwise_cons.2 ⟨hlarger, hsorted⟩, fun s => ?_⟩
      rw [List.mem_cons, and_iff_left (rem_eq_zero_iff.1 h)]
    · rw [if_neg h]
      refine ⟨hsorted, fun s => ?_⟩
      rw [or_iff_right fun hs => h (rem_eq_zero_iff.2 hs.2)]

/-- The valid sizes, searched on machine words. -/
def searchSizes (granule total latency : UInt64) : Outcome (List UInt64) := do
  let divisors ← searchDivisors granule
  if hg : 0 < granule.toNat then
    let multiples ←
      searchMultiples granule (min total latency) hg (checked64 (2 * granule.toNat))
    return divisors ++ multiples
  else return divisors

/-- The search never leaves the machine words and finds the valid sizes. -/
theorem exists_searchSizes (granule total latency : UInt64) :
    ∃ words, searchSizes granule total latency = .ok words ∧
      words.map (·.toNat) = validSizes granule.toNat total.toNat latency.toNat := by
  obtain ⟨small, hsmall, hdivisors⟩ := exists_searchDivisors granule
  have hsorted := (List.pairwise_append.1
    (validSizes_pairwise granule.toNat total.toNat latency.toNat)).2.1
  by_cases hg : 0 < granule.toNat
  · obtain ⟨large, hlarge, hlarge_sorted, hmem⟩ :=
      exists_searchMultiples granule (min total latency) hg (2 * granule.toNat) (by omega)
    refine ⟨small ++ large, bind_eq_ok.2 ⟨small, hsmall, ?_⟩, ?_⟩
    · rw [dif_pos hg]
      exact bind_eq_ok.2 ⟨large, hlarge, rfl⟩
    · rw [List.map_append, hdivisors, validSizes]
      congr 1
      refine hlarge_sorted.eq_of_mem_iff hsorted fun s => ?_
      rw [hmem, mem_multiples, UInt64.toNat_min, and_iff_right hg]
      constructor
      · rintro ⟨k, rfl, hs⟩
        exact ⟨k + 2, by omega, by rw [Nat.add_mul, Nat.add_comm], hs⟩
      · rintro ⟨k, hk, rfl, hs⟩
        obtain ⟨j, rfl⟩ := Nat.exists_eq_add_of_le hk
        exact ⟨j, Nat.add_mul .., hs⟩
  · refine ⟨small, bind_eq_ok.2 ⟨small, hsmall, ?_⟩, ?_⟩
    · rw [dif_neg hg]
      rfl
    · rw [hdivisors, validSizes]
      refine List.self_eq_append_right.2 (List.eq_nil_iff_forall_not_mem.2 fun s hs => ?_)
      exact hg (mem_multiples.1 hs).1

/-- The valid sizes of a granule are ascending, and there are none for the granule `0`. A number is
one of them exactly if it is a divisor of the granule other than `1`, or a multiple from the second
on that divides the smaller bound. For all words the search finds them: it ends, divides by no zero
and leaves no word, also where a multiple of the granule is out of range. -/
theorem validSizes_exact (granule total latency : UInt64) :
    (validSizes granule.toNat total.toNat latency.toNat).Pairwise (· < ·) ∧
      validSizes 0 total.toNat latency.toNat = [] ∧
      (∀ s, s ∈ validSizes granule.toNat total.toNat latency.toNat ↔
        0 < granule.toNat ∧ (1 < s ∧ s ∣ granule.toNat ∨
          ∃ k, 2 ≤ k ∧ s = k * granule.toNat ∧ s ≤ min total.toNat latency.toNat ∧
            s ∣ min total.toNat latency.toNat)) ∧
      ∃ words, searchSizes granule total latency = .ok words ∧
        words.map (·.toNat) = validSizes granule.toNat total.toNat latency.toNat := by
  refine ⟨validSizes_pairwise .., ?_, fun s => ?_, exists_searchSizes granule total latency⟩
  · refine List.eq_nil_iff_forall_not_mem.2 fun s hs => ?_
    exact Nat.lt_irrefl 0 (mem_validSizes.1 hs).1
  · rw [mem_validSizes]
    simp only [and_comm (b := s ≤ min total.toNat latency.toNat)]

end TorusRouting.Relay
