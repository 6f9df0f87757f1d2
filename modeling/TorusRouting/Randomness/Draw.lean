import TorusRouting.Failure
import TorusRouting.Randomness.Keystream

/-!
# Random draws

Coins and uniform numbers from a keystream. A number below `range` is the high part of a random word
times `range`; words whose low part falls outside the largest even zone are drawn again.
-/

namespace TorusRouting.Randomness

/-- A computation that consumes a keystream. Drawing from an empty range is a fault. -/
abbrev Draw := StateT Keystream Outcome

/-- A source of numbers in a keystream. -/
abbrev Source := Keystream → Nat × Keystream

/-- One word. -/
def word32 : Source := fun k => (k.next.1.toNat, k.next.2)

/-- Two words, the low one first. -/
def word64 : Source := fun k =>
  let (low, k) := word32 k
  let (high, k) := word32 k
  (low + UInt32.size * high, k)

/-- The chance `numerator / 2 ^ 64`. -/
structure Chance where
  numerator : Nat

/-- One in five. -/
def Chance.fifth : Chance := ⟨3689348814741910528⟩

/-- One in four. -/
def Chance.quarter : Chance := ⟨4611686018427387904⟩

/-- Three in ten. -/
def Chance.threeTenths : Chance := ⟨5534023222112865280⟩

/-- One in two. -/
def Chance.half : Chance := ⟨9223372036854775808⟩

/-- True with the given chance. -/
def coin (c : Chance) : Draw Bool := fun k =>
  let (w, k) := word64 k
  .ok (w < c.numerator, k)

/-- The largest low part that is accepted for numbers below `range`: the multiple of `range`
by a power of two with the top bit set, less one. -/
def zone (bits range : Nat) : Nat := range <<< (bits - 1 - Nat.log2 range) - 1

/-- Is a word of the given width accepted for numbers below `range`? At least half of the words
are. -/
def accepts (bits range w : Nat) : Bool := w * range % (1 <<< bits) ≤ zone bits range

/-- The first accepted word of the next `tries`, as a number below `range`; `0` if there is none. -/
def sampleWithin (word : Source) (bits range : Nat) : (tries : Nat) → Source
  | 0, k => (0, k)
  | tries + 1, k =>
    let (w, k) := word k
    if accepts bits range w then ((w * range) >>> bits, k)
    else sampleWithin word bits range tries k

/-- A number below `range` from words of the given width. Words are drawn until one is accepted.
Once a keystream has come back to a state without any, none will ever be, so the search ends with
the period of the stream. -/
def sample (word : Source) (bits range : Nat) : Source := fun k =>
  sampleWithin word bits range k.lifetime k

/-- A number below `n` from words of the given width; a fault when there is none. -/
def below (word : Source) (bits n : Nat) : Draw Nat := fun k =>
  if n = 0 then fault .emptyRange else .ok (sample word bits n k)

/-- A number below `n` drawn from 32-bit words. -/
def below32 : Nat → Draw Nat := below word32 32

/-- A number below `n` drawn from 64-bit words. -/
def below64 : Nat → Draw Nat := below word64 64

/-- A word from `low` to `high`; a fault when there is none. -/
def between32 (low high : UInt32) : Draw UInt32 := do
  if high < low then fault .emptyRange
  else return UInt32.ofNat (low.toNat + (← below32 (high.toNat - low.toNat + 1)))

end TorusRouting.Randomness
