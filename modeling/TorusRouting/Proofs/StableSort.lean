import Mathlib.Order.Lattice
import TorusRouting.Relay.Grouping

/-!
# Sorted lists

Sorting by a comparison that agrees with the order of a key puts the elements in the order of their
keys. Elements with equal keys stay in whatever order they came in.
-/

namespace TorusRouting

variable {α β : Type} {less : α → α → Bool}

private theorem insertDescending_perm (less : α → α → Bool) (a : α) (l : List α) :
    (insertDescending less a l).Perm (a :: l) := by
  induction l with
  | nil => exact .rfl
  | cons b l ih =>
    rw [insertDescending]
    split
    · exact (ih.cons b).trans (.swap a b l)
    · exact .rfl

/-- Sorting only permutes. -/
theorem stableSort_perm (less : α → α → Bool) (l : List α) : (stableSort less l).Perm l := by
  have grow (l sorted : List α) :
      (l.foldl (fun sorted a => insertDescending less a sorted) sorted).Perm (sorted ++ l) := by
    induction l generalizing sorted with
    | nil => simp
    | cons a l ih =>
      refine (ih _).trans ?_
      exact ((insertDescending_perm less a sorted).append_right l).trans
        List.perm_middle.symm
  exact (List.reverse_perm _).trans (by simpa using grow l [])

private theorem insertDescending_map (f : α → β) (less : β → β → Bool) (a : α) (l : List α) :
    insertDescending less (f a) (l.map f) =
      (insertDescending (fun x y => less (f x) (f y)) a l).map f := by
  induction l with
  | nil => rfl
  | cons b l ih =>
    rw [List.map_cons, insertDescending, insertDescending, ih]
    split <;> rfl

/-- Sorting sees the elements only through the comparison. -/
theorem stableSort_map (f : α → β) (less : β → β → Bool) (l : List α) :
    stableSort less (l.map f) = (stableSort (fun x y => less (f x) (f y)) l).map f := by
  have grow (l sorted : List α) :
      (l.map f).foldl (fun sorted a => insertDescending less a sorted) (sorted.map f) =
        (l.foldl (fun sorted a => insertDescending (fun x y => less (f x) (f y)) a sorted)
          sorted).map f := by
    induction l generalizing sorted with
    | nil => rfl
    | cons a l ih => rw [List.map_cons, List.foldl_cons, List.foldl_cons, insertDescending_map, ih]
  rw [stableSort, stableSort, List.map_reverse]
  exact congrArg List.reverse (grow l [])

section Keys

variable {κ : Type} [LinearOrder κ] {key : α → κ} {P : α → α → Prop} {l sorted : List α} {a : α}

/-- An element that comes after all others in the input is inserted behind those with its key. -/
private theorem insertDescending_pairwise
    (hless : ∀ x ∈ sorted, (less a x = true ↔ key a < key x)) (hlate : ∀ x ∈ sorted, P x a)
    (h : sorted.Pairwise fun x y => key y < key x ∨ key y = key x ∧ P y x) :
    (insertDescending less a sorted).Pairwise fun x y => key y < key x ∨ key y = key x ∧ P y x := by
  induction sorted with
  | nil => exact List.pairwise_singleton ..
  | cons b sorted ih =>
    rw [List.forall_mem_cons] at hless
    rw [insertDescending]
    obtain ⟨hb, hsorted⟩ := List.pairwise_cons.1 h
    split
    · rename_i hlt
      refine List.pairwise_cons.2
        ⟨fun x hx => ?_, ih hless.2 (List.forall_mem_cons.1 hlate).2 hsorted⟩
      rcases List.mem_cons.1 ((insertDescending_perm less a sorted).mem_iff.1 hx) with rfl | hx
      · exact Or.inl (hless.1.1 hlt)
      · exact hb x hx
    · rename_i hnot
      have hle : key b ≤ key a := le_of_not_gt fun hlt => hnot (hless.1.2 hlt)
      have hkeys : ∀ x ∈ b :: sorted, key x ≤ key a := by
        refine List.forall_mem_cons.2 ⟨hle, fun x hx => ?_⟩
        rcases hb x hx with hlt | ⟨heq, _⟩
        · exact hlt.le.trans hle
        · exact heq.le.trans hle
      refine List.pairwise_cons.2 ⟨fun x hx => ?_, h⟩
      rcases (hkeys x hx).lt_or_eq with hlt | heq
      · exact Or.inl hlt
      · exact Or.inr ⟨heq, hlate x hx⟩

/-- The sorted list ascends by key. Among equal keys, whatever related the elements of the input in
their order still does. -/
theorem stableSort_pairwise (hless : ∀ x ∈ l, ∀ y ∈ l, (less x y = true ↔ key x < key y))
    (hl : l.Pairwise P) :
    (stableSort less l).Pairwise fun x y => key x < key y ∨ key x = key y ∧ P x y := by
  have grow (l sorted : List α)
      (hless : ∀ x ∈ sorted ++ l, ∀ y ∈ sorted ++ l, (less x y = true ↔ key x < key y))
      (hlate : ∀ x ∈ sorted, ∀ y ∈ l, P x y) (hl : l.Pairwise P)
      (h : sorted.Pairwise fun x y => key y < key x ∨ key y = key x ∧ P y x) :
      (l.foldl (fun sorted a => insertDescending less a sorted) sorted).Pairwise
        fun x y => key y < key x ∨ key y = key x ∧ P y x := by
    induction l generalizing sorted with
    | nil => exact h
    | cons a l ih =>
      obtain ⟨ha, hl⟩ := List.pairwise_cons.1 hl
      have hmem {x : α} (hx : x ∈ insertDescending less a sorted) : x = a ∨ x ∈ sorted :=
        List.mem_cons.1 ((insertDescending_perm less a sorted).mem_iff.1 hx)
      have hsub : insertDescending less a sorted ++ l ⊆ sorted ++ a :: l := by
        intro x hx
        rcases List.mem_append.1 hx with hx | hx
        · rcases hmem hx with rfl | hx <;> simp [*]
        · simp [hx]
      refine ih _ (fun x hx y hy => hless x (hsub hx) y (hsub hy)) (fun x hx y hy => ?_) hl ?_
      · rcases hmem hx with rfl | hx
        · exact ha y hy
        · exact hlate x hx y (List.mem_cons_of_mem _ hy)
      · refine insertDescending_pairwise (fun x hx => ?_) (fun x hx => ?_) h
        · exact hless a (by simp) x (by simp [hx])
        · exact hlate x hx a (List.mem_cons_self ..)
  rw [stableSort, List.pairwise_reverse]
  exact grow l [] (by simpa using hless) (by simp) hl .nil

end Keys

end TorusRouting
