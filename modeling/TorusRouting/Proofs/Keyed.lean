import Mathlib.Data.List.Nodup
import TorusRouting.Epoch.Basic
import TorusRouting.Total

/-!
# Tables keyed by their values

A table is keyed by a function when every value stands under its own key. Such a table is
determined by its values in order, a lookup is membership, and a change under a key is a change
of the one value with that key. An epoch is well keyed when its three tables are.
-/

namespace TorusRouting

namespace Table

variable {κ α : Type} [DecidableEq κ]

private theorem find?_eq_some_iff {l : List (κ × α)} (hl : (l.map Prod.fst).Nodup) {k : κ} {a : α} :
    find? k l = some a ↔ (k, a) ∈ l := by
  induction l with
  | nil => simp [find?]
  | cons e l ih =>
    obtain ⟨j, b⟩ := e
    rw [List.map_cons, List.nodup_cons] at hl
    rw [List.mem_cons, find?]
    by_cases hj : j = k
    · subst hj
      have hn : (j, a) ∉ l := fun hm => hl.1 (List.mem_map.2 ⟨_, hm, rfl⟩)
      simp [hn, eq_comm]
    · have hk : ¬ k = j := fun h => hj h.symm
      simp [hj, hk, ih hl.2]

/-- A lookup finds exactly the listed entries. -/
theorem get?_eq_some_iff {t : Table κ α} {k : κ} {a : α} : t.get? k = some a ↔ (k, a) ∈ t.toList :=
  find?_eq_some_iff t.distinct

omit [DecidableEq κ] in
/-- A value is in the table if it stands under some key. -/
theorem mem_values {t : Table κ α} {a : α} : a ∈ t.values ↔ ∃ k, (k, a) ∈ t.toList := by
  simp [values]

/-- What a key leads to is a value of the table. -/
theorem mem_values_of_get? {t : Table κ α} {k : κ} {a : α} (h : t.get? k = some a) :
    a ∈ t.values := mem_values.2 ⟨k, get?_eq_some_iff.1 h⟩

/-- A key is in the table if it leads to a value. -/
theorem mem_keys_iff {t : Table κ α} {k : κ} : k ∈ t.keys ↔ ∃ a, t.get? k = some a := by
  simp [keys, get?_eq_some_iff]

/-- Tables with the same keys have entries in the same places. -/
theorem exists_get?_of_keys_eq {s t : Table κ α} (h : s.keys = t.keys) {k : κ} {b : α}
    (hb : s.get? k = some b) : ∃ a, t.get? k = some a := by
  rw [← mem_keys_iff, ← h]
  exact mem_keys_iff.2 ⟨b, hb⟩

omit [DecidableEq κ] in
/-- No other entry has the key of a listed one. -/
theorem fst_ne_of_toList_eq {t : Table κ α} {k : κ} {a : α} {before after : List (κ × α)}
    (h : t.toList = before ++ (k, a) :: after) :
    (∀ x ∈ before, x.1 ≠ k) ∧ ∀ x ∈ after, x.1 ≠ k := by
  have hkeys := t.distinct
  rw [h, List.map_append, List.map_cons, List.nodup_append, List.nodup_cons] at hkeys
  obtain ⟨_, ⟨hafter, _⟩, hbefore⟩ := hkeys
  refine ⟨fun x hx heq => ?_, fun x hx heq => ?_⟩
  · exact hbefore x.1 (List.mem_map.2 ⟨x, hx, rfl⟩) k (List.mem_cons_self ..) heq
  · exact hafter (List.mem_map.2 ⟨x, hx, heq⟩)

private theorem total_map_modify {l : List (κ × α)} (hl : (l.map Prod.fst).Nodup) {k : κ} {a : α}
    (h : (k, a) ∈ l) (f : α → α) (w : α → Nat) :
    total ((l.map fun e => if e.1 = k then (e.1, f e.2) else e).map (w ·.2)) + w a =
      total (l.map (w ·.2)) + w (f a) := by
  induction l with
  | nil => simp at h
  | cons e l ih =>
    obtain ⟨j, b⟩ := e
    rw [List.map_cons, List.nodup_cons] at hl
    simp only [List.map_cons, total_cons]
    rcases List.mem_cons.1 h with h | h
    · obtain ⟨rfl, rfl⟩ := Prod.mk.inj h
      have hrest : (l.map fun e => if e.1 = k then (e.1, f e.2) else e) = l := by
        refine (List.map_congr_left fun e he => ?_).trans (List.map_id l)
        have hne : ¬ e.1 = k := fun heq => hl.1 (List.mem_map.2 ⟨e, he, heq⟩)
        simp [hne]
      rw [hrest]
      simp only [ite_true]
      omega
    · have hne : ¬ j = k := fun heq => hl.1 (heq ▸ List.mem_map.2 ⟨_, h, rfl⟩)
      have := ih hl.2 h
      simp only [hne, ite_false]
      omega

/-- Changing one value changes a total by the difference at that value. -/
theorem total_modify {t : Table κ α} {k : κ} {a : α} (h : t.get? k = some a) (f : α → α)
    (w : α → Nat) :
    total ((t.modify k f).values.map w) + w a = total (t.values.map w) + w (f a) := by
  have hm := total_map_modify t.distinct (get?_eq_some_iff.1 h) f w
  simpa only [values, modify, List.map_map, Function.comp_def] using hm

/-- A new entry goes to the end. -/
theorem toList_insert_of_notMem {t : Table κ α} {k : κ} (h : k ∉ t.keys) (a : α) :
    (t.insert k a).toList = t.toList ++ [(k, a)] := put_of_notMem h

/-- The value of a new key comes last. -/
theorem values_insert_of_notMem {t : Table κ α} {k : κ} (h : k ∉ t.keys) (a : α) :
    (t.insert k a).values = t.values ++ [a] := by
  rw [values, toList_insert_of_notMem h, List.map_append]
  rfl

/-- A new entry hides no other. -/
theorem get?_insert_of_notMem {t : Table κ α} {k j : κ} {b : α} (h : k ∉ t.keys)
    (hj : t.get? j = some b) (a : α) : (t.insert k a).get? j = some b := by
  have hne : ¬ k = j := fun heq => h (mem_keys_iff.2 ⟨b, heq ▸ hj⟩)
  rw [get?_insert, if_neg hne, hj]

private theorem contains_eq_false_iff {t : Table κ α} {k : κ} :
    t.contains k = false ↔ k ∉ t.keys := by
  rw [contains, mem_keys_iff, Option.isSome_eq_false_iff, Option.isNone_iff_eq_none,
    ← Option.not_isSome_iff_eq_none, Option.isSome_iff_exists]

/-- Every value stands under its own key. -/
def KeyedBy (t : Table κ α) (key : α → κ) : Prop := ∀ e ∈ t.toList, e.1 = key e.2

instance (t : Table κ α) (key : α → κ) : Decidable (t.KeyedBy key) :=
  inferInstanceAs (Decidable (∀ e ∈ t.toList, e.1 = key e.2))

namespace KeyedBy

variable {t s : Table κ α} {key : α → κ}

/-- In a keyed table a lookup is membership. -/
theorem get?_eq_some_iff (h : t.KeyedBy key) {k : κ} {a : α} :
    t.get? k = some a ↔ a ∈ t.values ∧ key a = k := by
  rw [Table.get?_eq_some_iff, mem_values]
  constructor
  · intro hm
    exact ⟨⟨k, hm⟩, (h _ hm).symm⟩
  · rintro ⟨⟨j, hm⟩, rfl⟩
    have hj : j = key a := h _ hm
    rwa [hj] at hm

/-- Every value is found under its own key. -/
theorem get?_key (h : t.KeyedBy key) {a : α} (ha : a ∈ t.values) : t.get? (key a) = some a :=
  h.get?_eq_some_iff.2 ⟨ha, rfl⟩

omit [DecidableEq κ] in
/-- The entries are told by the values alone. -/
theorem toList_eq (h : t.KeyedBy key) : t.toList = t.values.map fun a => (key a, a) := by
  rw [values, List.map_map]
  refine (List.map_id _).symm.trans (List.map_congr_left fun e he => ?_)
  exact Prod.ext (h e he) rfl

omit [DecidableEq κ] in
/-- The values of a keyed table in order determine it. -/
theorem ext (ht : t.KeyedBy key) (hs : s.KeyedBy key) (h : t.values = s.values) : t = s :=
  Table.ext (by rw [ht.toList_eq, hs.toList_eq, h])

omit [DecidableEq κ] in
private theorem keys_eq (h : t.KeyedBy key) : t.keys = t.values.map key := by
  rw [keys, h.toList_eq, List.map_map]
  rfl

omit [DecidableEq κ] in
/-- No two values of a keyed table have one key. -/
theorem nodup (h : t.KeyedBy key) : (t.values.map key).Nodup := by
  rw [← h.keys_eq]
  exact t.distinct

/-- A change under a key changes the value with that key. -/
theorem values_modify (h : t.KeyedBy key) (k : κ) (f : α → α) :
    (t.modify k f).values = t.values.map fun a => if key a = k then f a else a := by
  simp only [values, modify, List.map_map]
  refine List.map_congr_left fun e he => ?_
  simp only [Function.comp_apply, ← h e he]
  split <;> rfl

/-- Other values with the same keys, each stored in its place, are keyed as well. -/
theorem of_keys_eq (h : t.KeyedBy key) (hkeys : s.keys = t.keys)
    (hkey : ∀ k a, t.get? k = some a → ∃ b, s.get? k = some b ∧ key b = key a) :
    s.KeyedBy key := by
  rintro ⟨k, b⟩ hm
  have hb : s.get? k = some b := Table.get?_eq_some_iff.2 hm
  obtain ⟨a, ha⟩ := exists_get?_of_keys_eq hkeys hb
  obtain ⟨b', hb', heq⟩ := hkey k a ha
  cases hb.symm.trans hb'
  exact (h _ (Table.get?_eq_some_iff.1 ha)).trans heq.symm

/-- A value written under its own key. -/
theorem insert (h : t.KeyedBy key) (a : α) : (t.insert (key a) a).KeyedBy key := by
  rintro ⟨k, b⟩ hm
  have hb : (t.insert (key a) a).get? k = some b := Table.get?_eq_some_iff.2 hm
  rw [get?_insert] at hb
  split at hb
  · rename_i heq
    cases hb
    exact heq.symm
  · exact h _ (Table.get?_eq_some_iff.1 hb)

end KeyedBy

/-! ## Tables that only grow at the end -/

/-- The entries of `s` come first in `t`, in the same order, with values related to the old ones. -/
structure Extends (R : α → α → Prop) (s t : Table κ α) : Prop where
  keys : s.keys <+: t.keys
  value : ∀ k a, s.get? k = some a → ∃ b, t.get? k = some b ∧ R a b

namespace Extends

variable {R : α → α → Prop} {s t u : Table κ α}

/-- A table extends itself. -/
theorem refl (hR : ∀ a, R a a) (t : Table κ α) : t.Extends R t :=
  ⟨List.prefix_rfl, fun _ a ha => ⟨a, ha, hR a⟩⟩

/-- Extensions follow one another. -/
theorem trans (hR : ∀ a b c, R a b → R b c → R a c) (h : s.Extends R t) (h' : t.Extends R u) :
    s.Extends R u where
  keys := h.keys.trans h'.keys
  value := by
    intro k a ha
    obtain ⟨b, hb, hab⟩ := h.value k a ha
    obtain ⟨c, hc, hbc⟩ := h'.value k b hb
    exact ⟨c, hc, hR a b c hab hbc⟩

/-- A new key goes to the end. -/
theorem insert (hR : ∀ a, R a a) {k : κ} (hk : k ∉ t.keys) (a : α) :
    t.Extends R (t.insert k a) where
  keys := by
    rw [keys_insert, if_neg hk]
    exact List.prefix_append ..
  value _ b hb := ⟨b, get?_insert_of_notMem hk hb a, hR b⟩

end Extends

end Table

namespace Epoch

/-- Every op is stored under its name, every buffer and every pipe under its id. -/
structure WellKeyed (e : Epoch) : Prop where
  ops : e.ops.KeyedBy (·.name)
  buffers : e.buffers.KeyedBy (·.id)
  pipes : e.pipes.KeyedBy (·.id)

instance (e : Epoch) : Decidable e.WellKeyed :=
  decidable_of_iff
    (e.ops.KeyedBy (·.name) ∧ e.buffers.KeyedBy (·.id) ∧ e.pipes.KeyedBy (·.id))
    ⟨fun h => ⟨h.1, h.2.1, h.2.2⟩, fun h => ⟨h.ops, h.buffers, h.pipes⟩⟩

/-! ## Additions -/

section

variable {e e' : Epoch}

/-- An op is added exactly when its name is new. -/
theorem addOp_eq_ok {op : Op} : e.addOp op = .ok e' ↔
    op.name ∉ e.ops.keys ∧ e' = { e with ops := e.ops.insert op.name op } := by
  rw [addOp, ← Table.contains_eq_false_iff, eq_comm (a := e')]
  cases e.ops.contains op.name <;> simp [reject]

/-- A buffer is added exactly when its id is new. -/
theorem addBuffer_eq_ok {b : Buffer} : e.addBuffer b = .ok e' ↔
    b.id ∉ e.buffers.keys ∧ e' = { e with buffers := e.buffers.insert b.id b } := by
  rw [addBuffer, ← Table.contains_eq_false_iff, eq_comm (a := e')]
  cases e.buffers.contains b.id <;> simp [reject]

/-- A pipe is added exactly when its id is new. -/
theorem addPipe_eq_ok {p : Pipe} : e.addPipe p = .ok e' ↔
    p.id ∉ e.pipes.keys ∧ e' = { e with pipes := e.pipes.insert p.id p } := by
  rw [addPipe, ← Table.contains_eq_false_iff, eq_comm (a := e')]
  cases e.pipes.contains p.id <;> simp [reject]

end

end Epoch

end TorusRouting
