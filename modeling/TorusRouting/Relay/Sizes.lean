/-!
# Valid buffer sizes

A buffer with granule `g` may take the divisors of `g` other than `1`, and every multiple of `g`
from `2 * g` on that divides the useful bound, the smaller of the tiles of the epoch and the tiles
that hide the latency. A multiple `k * g` divides the bound exactly when `g` does and `k` divides
the quotient, so both parts are lists of divisors.
-/

namespace TorusRouting.Relay

/-- Divisors of `n` from `i` up to the square root of `n`, ascending. -/
def smallDivisors (n i : Nat) : List Nat :=
  if h : 0 < i ∧ i ≤ n / i then
    if n % i = 0 then i :: smallDivisors n (i + 1) else smallDivisors n (i + 1)
  else []
termination_by n + 1 - i
decreasing_by
  all_goals
    have : n / i ≤ n := Nat.div_le_self n i
    omega

/-- Divisors of `n` other than `1`, ascending. -/
def divisors (n : Nat) : List Nat :=
  let small := smallDivisors n 1
  let large := (small.filter fun d => d * d != n).reverse.map (n / ·)
  (small ++ large).filter (1 < ·)

/-- Sizes a buffer may take, ascending. -/
def validSizes (granule total latency : Nat) : List Nat :=
  let bound := min total latency
  divisors granule ++
    if bound % granule = 0 then (divisors (bound / granule)).map (granule * ·) else []

end TorusRouting.Relay
