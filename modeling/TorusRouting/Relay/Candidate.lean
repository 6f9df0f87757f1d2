import TorusRouting.L1

/-!
# Candidates for growth

A candidate only moves to a larger one of its valid sizes, and only after the extra bytes were
reserved. Each move leaves fewer valid sizes above the allocation.
-/

namespace TorusRouting.Relay

/-- A buffer being grown. -/
structure Candidate where
  id : BufferId
  core : Core
  /-- Valid sizes, ascending. -/
  sizes : List Nat
  tileBytes : Nat
  granule : Nat
  allocated : Nat
  /-- Bytes to aim at when the spare L1 is shared out. -/
  target : Nat := 0
  /-- Refused, or out of sizes. -/
  exhausted : Bool := false
  deriving DecidableEq, Repr, Inhabited

/-- An accepted move of one buffer. -/
structure GrowthStep where
  buffer : BufferId
  /-- Tiles allocated before. -/
  before : Nat
  /-- Tiles allocated afterwards. -/
  after : Nat
  /-- Bytes reserved for the move. -/
  bytes : UInt64
  deriving DecidableEq, Repr, Inhabited

/-- Raising a bound to an element above it leaves fewer elements above the bound. -/
theorem countP_lt_of_mem {l : List Nat} {a b : Nat} (hb : b ∈ l) (h : a < b) :
    l.countP (b < ·) < l.countP (a < ·) := by
  induction l with
  | nil => simp at hb
  | cons x l ih =>
    have hle : l.countP (b < ·) ≤ l.countP (a < ·) :=
      List.countP_mono_left fun y _ hy => by
        simp only [decide_eq_true_eq] at hy ⊢
        omega
    rw [List.countP_cons, List.countP_cons]
    rcases List.mem_cons.1 hb with rfl | hb
    · simp only [Nat.lt_irrefl, decide_false, h, decide_true]
      simp only [Bool.false_eq_true, ite_false, ite_true]
      omega
    · have := ih hb
      by_cases hx : b < x
      · have hax : a < x := by omega
        simp only [hx, hax, decide_true, ite_true]
        omega
      · simp only [hx, decide_false, Bool.false_eq_true, ite_false]
        omega

namespace Candidate

/-- The smallest valid size above the allocation. -/
def nextSize? (c : Candidate) : Option Nat := c.sizes.find? (c.allocated < ·)

/-- Number of valid sizes above the allocation. -/
def pending (c : Candidate) : Nat := c.sizes.countP (c.allocated < ·)

/-- Bytes allocated, clamped to a word. -/
def bytes (c : Candidate) : Nat := min (c.allocated * c.tileBytes) maxWord64

/-- Valid sizes above the allocation up to a limit, descending. -/
def sizesUpTo (c : Candidate) (limit : Nat) : List Nat :=
  (c.sizes.filter fun s => c.allocated < s && s ≤ limit).reverse

/-- The sizes that are tried are above the allocation and within the limit. -/
theorem mem_sizesUpTo {c : Candidate} {limit s : Nat} :
    s ∈ c.sizesUpTo limit ↔ s ∈ c.sizes ∧ c.allocated < s ∧ s ≤ limit := by
  simp [sizesUpTo]

/-- Valid sizes above the allocation, descending. -/
def largerSizes (c : Candidate) : List Nat := (c.sizes.filter (c.allocated < ·)).reverse

/-- The candidate after an attempt to grow: moved, or exhausted. -/
def after (c : Candidate) : Option GrowthStep → Candidate
  | some s => { c with allocated := s.after }
  | none => { c with exhausted := true }

/-- Growing leaves the valid sizes as they are. -/
@[simp] theorem sizes_after (c : Candidate) (s : Option GrowthStep) :
    (c.after s).sizes = c.sizes := by
  cases s <;> rfl

variable {σ : Type} [ResourceModel σ]

/-- Grow to `target` tiles if the extra bytes can be reserved. -/
def tryGrow (c : Candidate) (target : Nat) (m : σ) : Option GrowthStep × σ :=
  if target ≤ c.allocated then (none, m)
  else
    let bytes := clamp64 ((target - c.allocated) * c.tileBytes)
    match ResourceModel.reserve m c.core bytes with
    | (.ok (), m) => (some ⟨c.id, c.allocated, target, bytes⟩, m)
    | (.error _, m) => (none, m)

/-- Grow to the first of the listed sizes that can be reserved. -/
def growToFirst (c : Candidate) : List Nat → σ → Option GrowthStep × σ
  | [], m => (none, m)
  | s :: sizes, m =>
    match c.tryGrow s m with
    | (some step, m) => (some step, m)
    | (none, m) => growToFirst c sizes m

/-- A step that was granted leads up to the target. -/
theorem tryGrow_eq_some {c : Candidate} {target : Nat} {m m' : σ} {s : GrowthStep}
    (h : c.tryGrow target m = (some s, m')) : s.after = target ∧ c.allocated < s.after := by
  unfold tryGrow at h
  split at h
  · simp at h
  · dsimp only at h
    split at h <;> simp only [Prod.mk.injEq, Option.some.injEq, reduceCtorEq, false_and] at h
    obtain ⟨rfl, -⟩ := h
    exact ⟨rfl, by simpa using ‹¬ target ≤ c.allocated›⟩

/-- A step that was granted leads up to one of the sizes. -/
theorem growToFirst_eq_some {c : Candidate} {sizes : List Nat} {m m' : σ} {s : GrowthStep}
    (h : c.growToFirst sizes m = (some s, m')) : s.after ∈ sizes ∧ c.allocated < s.after := by
  induction sizes generalizing m with
  | nil => simp [growToFirst] at h
  | cons t sizes ih =>
    unfold growToFirst at h
    split at h
    · rename_i hg
      simp only [Prod.mk.injEq, Option.some.injEq] at h
      obtain ⟨rfl, -⟩ := h
      obtain ⟨ha, hb⟩ := tryGrow_eq_some hg
      exact ⟨by simp [ha], hb⟩
    · obtain ⟨hm, hb⟩ := ih h
      exact ⟨List.mem_cons_of_mem _ hm, hb⟩

omit [ResourceModel σ] in
/-- A larger allocation leaves no more sizes above it. -/
theorem pending_after_le {c : Candidate} {s : Option GrowthStep}
    (h : ∀ t, s = some t → c.allocated < t.after) : (c.after s).pending ≤ c.pending := by
  cases s with
  | none => exact Nat.le_refl _
  | some t =>
    refine List.countP_mono_left fun x _ hx => ?_
    have := h t rfl
    have hx : t.after < x := of_decide_eq_true hx
    simp only [decide_eq_true_eq]
    omega

omit [ResourceModel σ] in
/-- A move to a valid size leaves fewer sizes above the allocation. -/
theorem pending_after_lt {c : Candidate} {s : GrowthStep} (hs : s.after ∈ c.sizes)
    (h : c.allocated < s.after) : (c.after (some s)).pending < c.pending :=
  countP_lt_of_mem hs h

end Candidate

end TorusRouting.Relay
