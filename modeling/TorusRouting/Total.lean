/-!
# Totals of lists of numbers
-/

namespace TorusRouting

/-- The sum of a list. -/
def total : List Nat → Nat
  | [] => 0
  | n :: l => n + total l

/-- Nothing adds up to zero. -/
@[simp] theorem total_nil : total [] = 0 := rfl

/-- The first number is added to the rest. -/
@[simp] theorem total_cons (n : Nat) (l : List Nat) : total (n :: l) = n + total l := rfl

/-- Two lists add up to the sum of their totals. -/
@[simp] theorem total_append (l m : List Nat) : total (l ++ m) = total l + total m := by
  induction l with
  | nil => simp
  | cons n l ih =>
    rw [List.cons_append, total_cons, total_cons, ih]
    omega

/-- Replacing one element changes a total by the difference at that element. -/
theorem total_map_set {α : Type} (f : α → Nat) {l : List α} {i : Nat} {a b : α}
    (h : l[i]? = some a) : total ((l.set i b).map f) + f a = total (l.map f) + f b := by
  induction l generalizing i with
  | nil => simp at h
  | cons x l ih =>
    cases i with
    | zero =>
      simp only [List.getElem?_cons_zero, Option.some.injEq] at h
      subst h
      simp only [List.set_cons_zero, List.map_cons, total_cons]
      omega
    | succ i =>
      have := ih (by simpa using h)
      simp only [List.set_cons_succ, List.map_cons, total_cons]
      omega

end TorusRouting
