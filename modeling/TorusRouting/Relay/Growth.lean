import TorusRouting.Relay.Candidate
import TorusRouting.Total

/-!
# Growth of the relay buffers of one core

Growth carries the candidates of a core, the resource model, and a log of the accepted moves. The
log is all that has to be written into the epoch afterwards.
-/

namespace TorusRouting.Relay

/-- The candidates of a core, the resource model, and the moves made so far. -/
structure Growth (σ : Type) where
  cands : List Candidate
  model : σ
  log : List GrowthStep := []

namespace Growth

variable {σ : Type}

/-- Number of valid sizes above the allocations. -/
def pending (g : Growth σ) : Nat := total (g.cands.map (·.pending))

/-- Number of valid sizes above a cap. -/
def sizesAbove (g : Growth σ) (cap : Nat) : Nat := (g.cands.flatMap (·.sizes)).countP (cap < ·)

/-- Write the result of an attempt on candidate `i`. -/
def settle (g : Growth σ) (i : Nat) (c : Candidate) (r : Option GrowthStep × σ) : Growth σ :=
  ⟨g.cands.set i (c.after r.1), r.2, g.log ++ r.1.toList⟩

variable [ResourceModel σ]

/-- Take the largest valid size that fits, for a core with one candidate. -/
def single (c : Candidate) (m : σ) : Growth σ :=
  Growth.settle ⟨[c], m, []⟩ 0 c (c.growToFirst c.largerSizes m)

end Growth

end TorusRouting.Relay
