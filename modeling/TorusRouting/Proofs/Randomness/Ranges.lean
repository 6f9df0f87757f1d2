import Mathlib.Algebra.Group.Nat.Defs
import Mathlib.Data.List.Forall2
import Mathlib.Logic.Function.Iterate
import TorusRouting.Randomness.Draw

/-!
# Random draws stay in their range

What holds of a draw from every keystream. A number between two bounds is between them, whichever
words the keystream gives and however many of them are refused. A keystream runs through all values
of its counter before it repeats, so a word that is accepted at all is accepted within its lifetime:
a sample is the first accepted word, however late it comes.
-/

namespace TorusRouting.Randomness

/-- From every keystream the draw gives a value, and the value has the property. -/
def Draw.Always {α : Type} (d : Draw α) (P : α → Prop) : Prop :=
  ∀ k, ∃ a k', d.run k = .ok (a, k') ∧ P a

namespace Draw.Always

variable {α β : Type} {P : α → Prop} {Q : β → Prop} {d : Draw α} {f : α → Draw β}

/-- A value that is not drawn. -/
theorem pure {a : α} (h : P a) : Draw.Always (Pure.pure a) P := fun k => ⟨a, k, rfl, h⟩

/-- A draw whose result the next draw depends on. -/
theorem bind (hd : d.Always P) (hf : ∀ a, P a → (f a).Always Q) : Draw.Always (d >>= f) Q := by
  intro k
  obtain ⟨a, k', hrun, ha⟩ := hd k
  obtain ⟨b, k'', hrun', hb⟩ := hf a ha k'
  refine ⟨b, k'', ?_, hb⟩
  rw [StateT.run_bind, hrun]
  exact hrun'

/-- A checked computation between two draws. -/
theorem lift {x : Outcome α} {a : α} (hx : x = .ok a) (h : P a) : Draw.Always (liftM x) P := by
  subst hx
  exact fun k => ⟨a, k, rfl, h⟩

/-- A checked computation whose result the next draw depends on. -/
theorem lift_bind {x : Outcome α} {a : α} (hx : x = .ok a) (hf : (f a).Always Q) :
    Draw.Always (liftM x >>= f) Q :=
  bind (lift (P := (· = a)) hx rfl) fun _ h => h ▸ hf

/-- Every value with the first property has the second. -/
theorem mono {P' : α → Prop} (hd : d.Always P) (h : ∀ a, P a → P' a) : d.Always P' := by
  intro k
  obtain ⟨a, k', hrun, ha⟩ := hd k
  exact ⟨a, k', hrun, h a ha⟩

/-- A draw that depends on a decision. -/
theorem ite {c : Prop} [Decidable c] {d₁ d₂ : Draw α} (h₁ : c → d₁.Always P)
    (h₂ : ¬ c → d₂.Always P) : Draw.Always (if c then d₁ else d₂) P := by
  split
  · exact h₁ ‹_›
  · exact h₂ ‹_›

/-- A draw for each element of a list gives, element by element, what it always does. -/
theorem mapM {γ : Type} {g : γ → Draw α} {R : γ → α → Prop} (hg : ∀ c, (g c).Always (R c))
    (l : List γ) : Draw.Always (l.mapM g) (List.Forall₂ R l) := by
  induction l with
  | nil =>
    rw [List.mapM_nil]
    exact pure .nil
  | cons c l ih =>
    rw [List.mapM_cons]
    exact bind (hg c) fun a ha => bind ih fun as has => pure (.cons ha has)

end Draw.Always

/-- A coin falls on either side. -/
theorem coin_always (c : Chance) : (coin c).Always fun _ => True :=
  fun _ => ⟨_, _, rfl, trivial⟩

/-- A source of numbers of the given width. -/
def Source.Fits (word : Source) (bits : Nat) : Prop := ∀ k, (word k).1 < 2 ^ bits

/-- One word has 32 bits. -/
theorem word32_fits : word32.Fits 32 := fun k => k.next.1.toNat_lt

/-- Two words have 64 bits. -/
theorem word64_fits : word64.Fits 64 := by
  intro k
  have hlow := word32_fits k
  have hhigh := word32_fits (word32 k).2
  change (word32 k).1 + 2 ^ 32 * (word32 (word32 k).2).1 < 2 ^ 64
  omega

/-- The next word is the sample, or the search goes on behind it. -/
theorem sampleWithin_succ (word : Source) (bits range tries : Nat) (k : Keystream) :
    sampleWithin word bits range (tries + 1) k =
      if accepts bits range (word k).1 then (((word k).1 * range) >>> bits, (word k).2)
      else sampleWithin word bits range tries (word k).2 := rfl

/-- A sample is below its range: the high part of a word times the range, or `0`. -/
theorem sampleWithin_lt {word : Source} {bits range : Nat} (hword : word.Fits bits)
    (hrange : 0 < range) (tries : Nat) (k : Keystream) :
    (sampleWithin word bits range tries k).1 < range := by
  induction tries generalizing k with
  | zero => exact hrange
  | succ tries ih =>
    rw [sampleWithin_succ]
    split
    · rw [Nat.shiftRight_eq_div_pow]
      exact Nat.div_lt_of_lt_mul (Nat.mul_lt_mul_of_pos_right (hword k) hrange)
    · exact ih _

private theorem sample_lt {word : Source} {bits range : Nat} (hword : word.Fits bits)
    (hrange : 0 < range) (k : Keystream) : (sample word bits range k).1 < range := by
  unfold sample
  exact sampleWithin_lt hword hrange _ k

/-- A number below a positive bound is a sample. -/
theorem run_below (word : Source) (bits : Nat) {n : Nat} (hn : 0 < n) (k : Keystream) :
    (below word bits n).run k = .ok (sample word bits n k) := by
  unfold below
  exact if_neg (Nat.ne_of_gt hn)

private theorem below_always {word : Source} {bits n : Nat} (hword : word.Fits bits) (hn : 0 < n) :
    (below word bits n).Always (· < n) := by
  intro k
  obtain ⟨s, hs⟩ : ∃ s, s = sample word bits n k := ⟨_, rfl⟩
  have hlt := sample_lt hword hn k
  rw [run_below word bits hn k, ← hs] at *
  exact ⟨s.1, s.2, rfl, hlt⟩

/-- A number below a positive bound is below it. -/
theorem below32_lt {n : Nat} (hn : 0 < n) : (below32 n).Always (· < n) :=
  below_always word32_fits hn

/-- A number below a positive bound is below it. -/
theorem below64_lt {n : Nat} (hn : 0 < n) : (below64 n).Always (· < n) :=
  below_always word64_fits hn

/-- A word between two bounds is between them. -/
theorem between32_range {low high : UInt32} (h : low ≤ high) :
    (between32 low high).Always fun n => low ≤ n ∧ n ≤ high := by
  have hle : low.toNat ≤ high.toNat := h
  have hhigh := high.toNat_lt
  rw [between32]
  refine .ite (fun hlt => absurd h (UInt32.not_le.2 hlt)) fun _ =>
    (below32_lt (Nat.succ_pos _)).bind fun n hn => .pure ?_
  have hfits : low.toNat + n < UInt32.size := by
    change _ < 2 ^ 32
    omega
  rw [UInt32.le_iff_toNat_le, UInt32.le_iff_toNat_le, UInt32.toNat_ofNat_of_lt' hfits]
  omega

/-! ## Samples are the first accepted words -/

namespace Keystream

/-- The stream after `n` more words. -/
def drop (n : Nat) (k : Keystream) : Keystream := (fun k => k.next.2)^[n] k

/-- Words are dropped one after the other. -/
theorem drop_add (m n : Nat) (k : Keystream) : k.drop (m + n) = (k.drop n).drop m :=
  Function.iterate_add_apply _ m n k

private theorem drop_length (key : Vector UInt32 8) (counter : UInt64) (rest : List UInt32) :
    drop rest.length ⟨key, counter, rest⟩ = ⟨key, counter, []⟩ := by
  induction rest with
  | nil => rfl
  | cons w rest ih =>
    rw [List.length_cons, drop_add]
    exact ih

private theorem drop_block (key : Vector UInt32 8) (counter : UInt64) :
    drop 16 ⟨key, counter, []⟩ = ⟨key, counter + 1, []⟩ := by
  let b := (Block.initial key counter).encrypt
  have hlen : b.toList.tail.length = 15 := by rw [List.length_tail, Vector.length_toList]
  calc drop (15 + 1) ⟨key, counter, []⟩
      = drop 15 ⟨key, counter + 1, b.toList.tail⟩ := drop_add 15 1 _
    _ = ⟨key, counter + 1, []⟩ := by rw [← hlen, drop_length]

private theorem drop_blocks (key : Vector UInt32 8) (counter : UInt64) (n : Nat) :
    drop (16 * n) ⟨key, counter, []⟩ = ⟨key, counter + UInt64.ofNat n, []⟩ := by
  induction n with
  | zero =>
    rw [show UInt64.ofNat 0 = 0 from rfl, UInt64.add_zero]
    rfl
  | succ n ih =>
    rw [Nat.mul_succ, Nat.add_comm, drop_add, ih, drop_block, UInt64.add_assoc, UInt64.ofNat_add]
    rfl

/-- Behind its present block a stream repeats after all blocks. -/
theorem drop_period (k : Keystream) {n : Nat} (hn : k.rest.length ≤ n) :
    k.drop (n + 16 * UInt64.size) = k.drop n := by
  obtain ⟨i, rfl⟩ := Nat.exists_eq_add_of_le' hn
  obtain ⟨key, counter, rest⟩ := k
  have hround : UInt64.ofNat UInt64.size = 0 := by decide
  rw [Nat.add_right_comm, drop_add, drop_add i, drop_add i, drop_length, drop_blocks, hround,
    UInt64.add_zero]

end Keystream

/-- Every number of the source takes `d` words. -/
def Source.Takes (word : Source) (d : Nat) : Prop := ∀ k, (word k).2 = k.drop d

/-- A 32-bit number takes one word. -/
theorem word32_takes : word32.Takes 1 := fun _ => rfl

/-- A 64-bit number takes two words. -/
theorem word64_takes : word64.Takes 2 := fun _ => rfl

section

variable {word : Source} {d bits range n : Nat} {k : Keystream}

/-- The search finds the first accepted word when it is among those it may try. -/
theorem sampleWithin_eq (hword : word.Takes d)
    (hn : accepts bits range (word (k.drop (n * d))).1)
    (hfirst : ∀ m < n, ¬ accepts bits range (word (k.drop (m * d))).1) {tries : Nat}
    (htries : n < tries) :
    sampleWithin word bits range tries k =
      (((word (k.drop (n * d))).1 * range) >>> bits, k.drop ((n + 1) * d)) := by
  obtain ⟨tries, rfl⟩ := Nat.exists_eq_add_one_of_ne_zero (Nat.ne_zero_of_lt htries)
  rw [sampleWithin_succ]
  induction n generalizing k tries with
  | zero =>
    rw [Nat.zero_mul] at hn ⊢
    rw [Nat.zero_add, Nat.one_mul, ← hword k]
    exact if_pos hn
  | succ n ih =>
    obtain ⟨tries, rfl⟩ := Nat.exists_eq_add_one_of_ne_zero (n := tries) (by omega)
    have hskip (m : Nat) : k.drop ((m + 1) * d) = (word k).2.drop (m * d) := by
      rw [hword, ← Keystream.drop_add, Nat.succ_mul]
    have hk : ¬ accepts bits range (word k).1 := by
      have h := hfirst 0 n.succ_pos
      rwa [Nat.zero_mul] at h
    rw [if_neg hk, sampleWithin_succ, hskip, hskip]
    rw [hskip] at hn
    refine ih hn (fun m hm => ?_) tries (by omega)
    rw [← hskip]
    exact hfirst (m + 1) (Nat.succ_lt_succ hm)

/-- A sample is the first accepted word of the stream, however late it comes. -/
theorem sample_eq_of_first (hword : word.Takes d) (hd : d ∣ 16 * UInt64.size)
    (hn : accepts bits range (word (k.drop (n * d))).1)
    (hfirst : ∀ m < n, ¬ accepts bits range (word (k.drop (m * d))).1) :
    sample word bits range k =
      (((word (k.drop (n * d))).1 * range) >>> bits, k.drop ((n + 1) * d)) := by
  refine sampleWithin_eq hword hn hfirst (Nat.lt_of_not_le fun hlate => ?_)
  have hperiod : 0 < 16 * UInt64.size := by decide
  rw [Keystream.lifetime] at hlate
  obtain ⟨q, hq⟩ := hd
  rw [hq] at hlate hperiod
  have hdpos : 0 < d := Nat.pos_of_mul_pos_right hperiod
  have hqpos : 0 < q := Nat.pos_of_mul_pos_left hperiod
  have hqle : q ≤ d * q := Nat.le_mul_of_pos_left q hdpos
  have hnle : n ≤ n * d := Nat.le_mul_of_pos_right n hdpos
  obtain ⟨m, rfl⟩ := Nat.exists_eq_add_of_le' (show q ≤ n by omega)
  rw [Nat.add_mul, Nat.mul_comm q] at hnle
  have hsame : k.drop ((m + q) * d) = k.drop (m * d) := by
    rw [Nat.add_mul, Nat.mul_comm q, ← hq]
    exact k.drop_period (by omega)
  rw [hsame] at hn
  exact hfirst m (by omega) hn

end

end TorusRouting.Randomness
