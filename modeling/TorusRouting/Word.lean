import TorusRouting.Failure

/-!
# Arithmetic on machine words

Sums, differences and products either stop at the end of the range of the word (`sat…`), or
are faults when they leave it (`…32`, `…64`).
-/

namespace TorusRouting

/-- The largest 64-bit word. -/
def maxWord64 : Nat := UInt64.size - 1

/-- The word of `n`, or the largest one when `n` is out of range. -/
def clamp64 (n : Nat) : UInt64 := UInt64.ofNat (min n maxWord64)

/-- A clamped number is the number itself below the largest word. -/
theorem toNat_clamp64 (n : Nat) : (clamp64 n).toNat = min n maxWord64 := by
  have h : min n maxWord64 < UInt64.size := by
    simp only [maxWord64, UInt64.size]
    omega
  exact UInt64.toNat_ofNat_of_lt' h

/-- The sum, or the largest word when it is out of range. -/
def satAdd (a b : UInt64) : UInt64 := clamp64 (a.toNat + b.toNat)

/-- The product, or the largest word when it is out of range. -/
def satMul (a b : UInt64) : UInt64 := clamp64 (a.toNat * b.toNat)

/-- The difference, or zero when it is out of range. -/
def satSub (a b : UInt64) : UInt64 := clamp64 (a.toNat - b.toNat)

/-- A difference of words that stops at zero is that of their numbers. -/
theorem toNat_satSub (a b : UInt64) : (satSub a b).toNat = a.toNat - b.toNat := by
  have := a.toNat_lt
  rw [satSub, toNat_clamp64]
  simp only [maxWord64, UInt64.size]
  omega

/-- The 32-bit word of `n`; a fault when there is none. -/
def word32 (n : Nat) : Outcome UInt32 :=
  if n < UInt32.size then .ok (UInt32.ofNat n) else fault .overflow

/-- The word of a number is the word with that number. -/
theorem word32_eq_ok {n : Nat} {w : UInt32} : word32 n = .ok w ↔ w.toNat = n := by
  unfold word32
  split
  · rename_i h
    constructor
    · intro heq
      cases heq
      exact UInt32.toNat_ofNat_of_lt' h
    · rintro rfl
      rw [UInt32.ofNat_toNat]
  · rename_i h
    constructor
    · intro heq
      cases heq
    · rintro rfl
      exact absurd w.toNat_lt h

/-- A number in the range of the word has one. -/
theorem exists_word32 {n : Nat} (h : n < UInt32.size) : ∃ w, word32 n = .ok w ∧ w.toNat = n :=
  ⟨UInt32.ofNat n, if_pos h, UInt32.toNat_ofNat_of_lt' h⟩

/-- A number that is no word is a fault. -/
theorem word32_eq_fault {n : Nat} (h : UInt32.size ≤ n) : word32 n = fault .overflow :=
  if_neg (Nat.not_lt.2 h)

/-- The number `n` if it is a 64-bit word; a fault otherwise. -/
def fit64 (n : Nat) : Outcome Nat :=
  if n < UInt64.size then .ok n else fault .overflow

/-- The sum; a fault when it is out of range. -/
def add32 (a b : UInt32) : Outcome UInt32 := word32 (a.toNat + b.toNat)

/-- The product; a fault when it is out of range. -/
def mul32 (a b : UInt32) : Outcome UInt32 := word32 (a.toNat * b.toNat)

/-- The difference; a fault when it is negative. -/
def sub32 (a b : UInt32) : Outcome UInt32 :=
  if b ≤ a then .ok (a - b) else fault .overflow

/-- A difference that is not negative is that of the numbers. -/
theorem exists_sub32 {a b : UInt32} (h : b.toNat ≤ a.toNat) :
    ∃ w, sub32 a b = .ok w ∧ w.toNat = a.toNat - b.toNat := by
  have hle : b ≤ a := UInt32.le_iff_toNat_le.2 h
  exact ⟨a - b, if_pos hle, UInt32.toNat_sub_of_le _ _ hle⟩

/-- The quotient of `a` by `b`; a fault when `b` is zero. -/
def div32 (a b : UInt32) : Outcome UInt32 :=
  if b = 0 then fault .divisionByZero else .ok (a / b)

/-- The remainder of `a` by `b`; a fault when `b` is zero. -/
def rem32 (a b : UInt32) : Outcome UInt32 :=
  if b = 0 then fault .divisionByZero else .ok (a % b)

/-- The number after `n`; a fault when there is none. -/
def next64 (n : UInt64) : Outcome UInt64 := do
  return UInt64.ofNat (← fit64 (n.toNat + 1))

/-- Every number but the largest word has one after it. -/
theorem next64_eq_ok {n : UInt64} (h : n.toNat + 1 < UInt64.size) : next64 n = .ok (n + 1) := by
  rw [next64, fit64, if_pos h]
  refine congrArg Except.ok (UInt64.toNat_inj.1 ?_)
  rw [UInt64.toNat_ofNat_of_lt' h, UInt64.toNat_add, UInt64.toNat_one]
  exact (Nat.mod_eq_of_lt h).symm

end TorusRouting
