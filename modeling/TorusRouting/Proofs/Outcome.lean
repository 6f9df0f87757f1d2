import Mathlib.Data.List.Forall2
import TorusRouting.Failure

/-!
# Successful outcomes

A sequence of operations succeeds exactly when each of them does. These characterisations open
`do` blocks, `mapM` and `forM` without unfolding them. A traversal relates two lists element by
element, so what is known of related elements is collected first.
-/

namespace TorusRouting

variable {α β γ : Type}

/-! ## Related lists -/

/-- An element on the left has a partner on the right. -/
theorem exists_right_of_forall₂ {R : α → β → Prop} {l : List α} {m : List β}
    (h : List.Forall₂ R l m) {a : α} (ha : a ∈ l) : ∃ b ∈ m, R a b := by
  induction h with
  | nil => cases ha
  | cons hab _ ih =>
    rcases List.mem_cons.1 ha with rfl | ha
    · exact ⟨_, List.mem_cons_self .., hab⟩
    · obtain ⟨b, hb, hr⟩ := ih ha
      exact ⟨b, List.mem_cons_of_mem _ hb, hr⟩

/-- An element on the right has a partner on the left. -/
theorem exists_left_of_forall₂ {R : α → β → Prop} {l : List α} {m : List β}
    (h : List.Forall₂ R l m) {b : β} (hb : b ∈ m) : ∃ a ∈ l, R a b :=
  exists_right_of_forall₂ (R := fun b a => R a b) h.flip hb

/-- Related elements are combined where they stand. -/
theorem exists_zipWith_of_forall₂ {R : α → β → Prop} (f : α → β → γ) {l : List α} {m : List β}
    (h : List.Forall₂ R l m) {a : α} (ha : a ∈ l) :
    ∃ b ∈ m, R a b ∧ f a b ∈ List.zipWith f l m := by
  induction h with
  | nil => cases ha
  | cons hab _ ih =>
    rw [List.zipWith_cons_cons]
    rcases List.mem_cons.1 ha with rfl | ha
    · exact ⟨_, List.mem_cons_self .., hab, List.mem_cons_self ..⟩
    · obtain ⟨b, hb, hr, hf⟩ := ih ha
      exact ⟨b, List.mem_cons_of_mem _ hb, hr, List.mem_cons_of_mem _ hf⟩

/-- Elements that agree under two functions give lists that do. -/
theorem map_eq_map_of_forall₂ {f : α → γ} {g : β → γ} {l : List α} {m : List β}
    (h : List.Forall₂ (fun a b => f a = g b) l m) : l.map f = m.map g := by
  induction h with
  | nil => rfl
  | cons hab _ ih => rw [List.map_cons, List.map_cons, hab, ih]

/-! ## Operations that may fail -/

/-- Two steps in a row succeed exactly when the first does, and the second on its value. -/
theorem bind_eq_ok {x : Outcome α} {f : α → Outcome β} {b : β} :
    (x >>= f) = .ok b ↔ ∃ a, x = .ok a ∧ f a = .ok b := by
  cases x with
  | error e =>
    constructor
    · intro h
      cases h
    · rintro ⟨a, h, _⟩
      cases h
  | ok a =>
    constructor
    · intro h
      exact ⟨a, rfl, h⟩
    · rintro ⟨a', h, hf⟩
      cases h
      exact hf

/-- Two steps in a row fail when the first does, or the second on its value. -/
theorem bind_eq_error {x : Outcome α} {f : α → Outcome β} {y : Failure} :
    (x >>= f) = .error y ↔ x = .error y ∨ ∃ a, x = .ok a ∧ f a = .error y := by
  cases x with
  | error z =>
    constructor
    · intro h
      cases h
      exact Or.inl rfl
    · rintro (h | ⟨a, h, _⟩)
      · cases h
        rfl
      · cases h
  | ok a =>
    constructor
    · intro h
      exact Or.inr ⟨a, rfl, h⟩
    · rintro (h | ⟨a', h, hf⟩)
      · cases h
      · cases h
        exact hf

/-- A value that is returned is the result. -/
theorem pure_eq_ok {a b : α} : (pure a : Outcome α) = .ok b ↔ a = b := by
  constructor
  · intro h
    cases h
    rfl
  · intro h
    rw [h]
    rfl

/-- A traversal succeeds when every element does, with the results in order. -/
theorem mapM_eq_ok {f : α → Outcome β} {l : List α} {m : List β} :
    l.mapM f = .ok m ↔ List.Forall₂ (fun a b => f a = .ok b) l m := by
  induction l generalizing m with
  | nil =>
    rw [List.mapM_nil, pure_eq_ok, List.forall₂_nil_left_iff]
    exact eq_comm
  | cons a l ih =>
    rw [List.mapM_cons, bind_eq_ok, List.forall₂_cons_left_iff]
    constructor
    · rintro ⟨b, hb, h⟩
      obtain ⟨m', hm', h⟩ := bind_eq_ok.1 h
      exact ⟨b, m', hb, ih.1 hm', (pure_eq_ok.1 h).symm⟩
    · rintro ⟨b, m', hb, hm', rfl⟩
      exact ⟨b, hb, bind_eq_ok.2 ⟨m', ih.2 hm', rfl⟩⟩

/-- Elements that all succeed have a traversal that succeeds. -/
theorem exists_mapM_eq_ok {f : α → Outcome β} {l : List α} (h : ∀ a ∈ l, ∃ b, f a = .ok b) :
    ∃ m, l.mapM f = .ok m := by
  induction l with
  | nil => exact ⟨[], rfl⟩
  | cons a l ih =>
    obtain ⟨b, hb⟩ := h a (List.mem_cons_self ..)
    obtain ⟨m, hm⟩ := ih fun x hx => h x (List.mem_cons_of_mem _ hx)
    exact ⟨b :: m, mapM_eq_ok.2 (.cons hb (mapM_eq_ok.1 hm))⟩

/-- Independent results that all succeed are gathered in order. -/
theorem gather_eq_ok {f : α → Outcome β} {l : List α} {m : List β}
    (h : List.Forall₂ (fun a b => f a = .ok b) l m) : gather (l.map f) = .ok m := by
  have hnone : (l.map f).findSome? Outcome.fault? = none := by
    rw [List.findSome?_eq_none_iff]
    intro r hr
    obtain ⟨a, ha, rfl⟩ := List.mem_map.1 hr
    obtain ⟨b, _, hb⟩ := exists_right_of_forall₂ h ha
    rw [hb]
    rfl
  rw [gather, hnone]
  exact mapM_eq_ok.2 (List.forall₂_map_left_iff.2 h)

/-- A traversal looks at its function on the elements only. -/
theorem mapM_congr {f g : α → Outcome β} {l : List α} (h : ∀ a ∈ l, f a = g a) :
    l.mapM f = l.mapM g := by
  induction l with
  | nil => rfl
  | cons a l ih =>
    rw [List.forall_mem_cons] at h
    rw [List.mapM_cons, List.mapM_cons, h.1, ih h.2]

/-- A loop of checks passes exactly when every check does. -/
theorem forM_eq_ok {f : α → Outcome Unit} {l : List α} :
    l.forM f = .ok () ↔ ∀ a ∈ l, f a = .ok () := by
  induction l with
  | nil => exact ⟨fun _ a ha => absurd ha List.not_mem_nil, fun _ => rfl⟩
  | cons a l ih =>
    rw [List.forall_mem_cons, ← ih]
    change (f a >>= fun _ => l.forM f) = .ok () ↔ _
    rw [bind_eq_ok]
    constructor
    · rintro ⟨⟨⟩, ha, hl⟩
      exact ⟨ha, hl⟩
    · rintro ⟨ha, hl⟩
      exact ⟨(), ha, hl⟩

end TorusRouting
