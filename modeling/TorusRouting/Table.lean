/-!
# Tables in insertion order

A table maps keys to values and remembers the order in which the keys came. A new key goes to
the end; writing under a present key replaces the value and keeps the place.
-/

namespace TorusRouting

/-- A finite map with distinct keys in insertion order. -/
@[ext] structure Table (κ α : Type) where
  toList : List (κ × α)
  distinct : (toList.map Prod.fst).Nodup
  deriving DecidableEq, Repr

namespace Table

variable {κ α : Type} [DecidableEq κ]

/-- The table without entries. -/
def empty : Table κ α := ⟨[], List.nodup_nil⟩

instance : Inhabited (Table κ α) := ⟨empty⟩

omit [DecidableEq κ] in
/-- The empty table has no entries. -/
@[simp] theorem toList_empty : (empty : Table κ α).toList = [] := rfl

/-- The keys in the order of their entries. -/
def keys (t : Table κ α) : List κ := t.toList.map Prod.fst

/-- The values in the order of their entries. -/
def values (t : Table κ α) : List α := t.toList.map Prod.snd

/-- Number of entries. -/
def size (t : Table κ α) : Nat := t.toList.length

/-- The first value listed under a key. -/
def find? (k : κ) : List (κ × α) → Option α
  | [] => none
  | (j, a) :: l => if j = k then some a else find? k l

/-- The value under a key. -/
def get? (t : Table κ α) (k : κ) : Option α := find? k t.toList

/-- Is there a value under the key? -/
def contains (t : Table κ α) (k : κ) : Bool := (t.get? k).isSome

/-- Replace the value under a key of a list, or append the entry. -/
def put (k : κ) (a : α) : List (κ × α) → List (κ × α)
  | [] => [(k, a)]
  | (j, b) :: l => if j = k then (k, a) :: l else (j, b) :: put k a l

private theorem map_fst_put (k : κ) (a : α) (l : List (κ × α)) :
    (put k a l).map Prod.fst =
      if k ∈ l.map Prod.fst then l.map Prod.fst else l.map Prod.fst ++ [k] := by
  induction l with
  | nil => simp [put]
  | cons e l ih =>
    obtain ⟨j, b⟩ := e
    by_cases h : j = k
    · simp [put, h]
    · have hk : ¬ k = j := fun h' => h h'.symm
      rw [put, if_neg h, List.map_cons, ih]
      by_cases hm : k ∈ l.map Prod.fst
      · simp [hm]
      · simp [hm, hk]

private theorem nodup_put (k : κ) (a : α) {l : List (κ × α)} (h : (l.map Prod.fst).Nodup) :
    ((put k a l).map Prod.fst).Nodup := by
  rw [map_fst_put]
  split
  · exact h
  · rename_i hk
    rw [List.nodup_append]
    refine ⟨h, by simp, ?_⟩
    intro x hx y hy hxy
    simp only [List.mem_singleton] at hy
    exact hk (hy ▸ hxy ▸ hx)

/-- Write a value under a key. -/
def insert (t : Table κ α) (k : κ) (a : α) : Table κ α :=
  ⟨put k a t.toList, nodup_put k a t.distinct⟩

/-- Change the value under a key, if there is one. -/
def modify (t : Table κ α) (k : κ) (f : α → α) : Table κ α :=
  ⟨t.toList.map fun e => if e.1 = k then (e.1, f e.2) else e, by
    have h : (t.toList.map fun e => if e.1 = k then (e.1, f e.2) else e).map Prod.fst =
        t.toList.map Prod.fst := by
      rw [List.map_map]
      refine List.map_congr_left fun e _ => ?_
      simp only [Function.comp_apply]
      split <;> rfl
    rw [h]
    exact t.distinct⟩

/-- Write the entries of a list one after the other: a repeated key keeps its first place and its
last value. -/
def ofList (l : List (κ × α)) : Table κ α := l.foldl (fun t e => t.insert e.1 e.2) empty

/-! ## Lookups after writes -/

private theorem find?_put (k j : κ) (a : α) (l : List (κ × α)) :
    find? j (put k a l) = if k = j then some a else find? j l := by
  induction l with
  | nil => rfl
  | cons e l ih =>
    obtain ⟨i, b⟩ := e
    by_cases hik : i = k
    · subst hik
      by_cases hij : i = j
      · simp [put, find?, hij]
      · simp [put, find?, hij]
    · by_cases hij : i = j
      · subst hij
        have hki : ¬ k = i := fun h => hik h.symm
        simp [put, find?, hik, hki]
      · simp [put, find?, hik, hij, ih]

/-- No key is in the empty table. -/
@[simp] theorem get?_empty (k : κ) : (empty : Table κ α).get? k = none := rfl

/-- A write is seen under its own key and nowhere else. -/
theorem get?_insert (t : Table κ α) (k j : κ) (a : α) :
    (t.insert k a).get? j = if k = j then some a else t.get? j := find?_put k j a t.toList

/-- A new key goes to the end; a present one keeps its place. -/
theorem keys_insert (t : Table κ α) (k : κ) (a : α) :
    (t.insert k a).keys = if k ∈ t.keys then t.keys else t.keys ++ [k] :=
  map_fst_put k a t.toList

/-- A change is seen under its own key and nowhere else. -/
theorem get?_modify (t : Table κ α) (k j : κ) (f : α → α) :
    (t.modify k f).get? j = if k = j then (t.get? j).map f else t.get? j := by
  simp only [get?, modify]
  induction t.toList with
  | nil => simp [find?]
  | cons e l ih =>
    obtain ⟨i, b⟩ := e
    by_cases hik : i = k
    · subst hik
      by_cases hij : i = j
      · simp [find?, hij]
      · simp only [List.map_cons, ite_true, find?, hij, ite_false, ih]
    · by_cases hij : i = j
      · subst hij
        have hki : ¬ k = i := fun h => hik h.symm
        simp [find?, hik, hki]
      · simp only [List.map_cons, hik, ite_false, find?, hij, ih]

/-- A change moves no key. -/
@[simp] theorem keys_modify (t : Table κ α) (k : κ) (f : α → α) : (t.modify k f).keys = t.keys := by
  simp only [keys, modify, List.map_map]
  refine List.map_congr_left fun e _ => ?_
  simp only [Function.comp_apply]
  split <;> rfl

/-- A new key is put last. -/
theorem put_of_notMem {k : κ} {a : α} {l : List (κ × α)} (h : k ∉ l.map Prod.fst) :
    put k a l = l ++ [(k, a)] := by
  induction l with
  | nil => rfl
  | cons e l ih =>
    simp only [List.map_cons, List.mem_cons, not_or] at h
    have hk : ¬ e.1 = k := fun h' => h.1 h'.symm
    simp [put, hk, ih h.2]

/-- Writing the entries of a table one after the other gives the table back. -/
theorem ofList_toList (t : Table κ α) : ofList t.toList = t := by
  have grow (l : List (κ × α)) (s : Table κ α)
      (h : ((s.toList ++ l).map Prod.fst).Nodup) :
      (l.foldl (fun t e => t.insert e.1 e.2) s).toList = s.toList ++ l := by
    induction l generalizing s with
    | nil => simp
    | cons e l ih =>
      have he : e.1 ∉ s.toList.map Prod.fst := by
        rw [List.map_append, List.nodup_append] at h
        intro hm
        exact h.2.2 e.1 hm e.1 (by simp) rfl
      have hs : (s.insert e.1 e.2).toList = s.toList ++ [e] := put_of_notMem he
      rw [List.foldl_cons, ih _ (by simpa [hs] using h), hs]
      simp
  exact Table.ext (by simpa [ofList] using grow t.toList empty t.distinct)

end Table

end TorusRouting
