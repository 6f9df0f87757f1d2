import Mathlib.Data.List.Perm.Subperm
import TorusRouting.L1
import TorusRouting.Proofs.Keyed

/-!
# The ledger counts what the buffers occupy

The ledger counts in words and stops at the largest one; the buffers of an epoch occupy an exact
number of bytes. A ledger accounts for an epoch when its count is the exact number up to that stop
and within the budget. A granted reservation has room below the budget, so it leaves no place for
the stop: after it the count is exact.
-/

namespace TorusRouting

/-- A total over selected elements counts the others as nothing. -/
theorem total_map_filter {α : Type} (p : α → Bool) (w : α → Nat) (l : List α) :
    total ((l.filter p).map w) = total (l.map fun a => if p a then w a else 0) := by
  induction l with
  | nil => rfl
  | cons a l ih =>
    rw [List.filter_cons, List.map_cons, total_cons]
    cases hp : p a with
    | false => simpa using ih
    | true => simp [ih]

/-- A term is at most the total. -/
theorem le_total_of_mem {α : Type} (w : α → Nat) {a : α} {l : List α} (h : a ∈ l) :
    w a ≤ total (l.map w) := by
  induction l with
  | nil => cases h
  | cons b l ih =>
    rw [List.map_cons, total_cons]
    rcases List.mem_cons.1 h with rfl | h
    · exact Nat.le_add_right ..
    · exact Nat.le_trans (ih h) (Nat.le_add_left ..)

/-- A total is at most as many times a bound of its terms. -/
theorem total_map_le {α : Type} {w : α → Nat} {l : List α} {n : Nat} (h : ∀ a ∈ l, w a ≤ n) :
    total (l.map w) ≤ l.length * n := by
  induction l with
  | nil => exact Nat.zero_le _
  | cons a l ih =>
    rw [List.forall_mem_cons] at h
    rw [List.map_cons, total_cons, List.length_cons, Nat.succ_mul, Nat.add_comm]
    exact Nat.add_le_add (ih h.2) h.1

/-- Smaller terms have a smaller total. -/
theorem total_map_le_total_map {α : Type} {v w : α → Nat} {l : List α} (h : ∀ a ∈ l, v a ≤ w a) :
    total (l.map v) ≤ total (l.map w) := by
  induction l with
  | nil => exact Nat.le_refl _
  | cons a l ih =>
    rw [List.forall_mem_cons] at h
    rw [List.map_cons, List.map_cons, total_cons, total_cons]
    exact Nat.add_le_add h.1 (ih h.2)

/-- The order of the terms does not matter. -/
theorem total_perm {l l' : List Nat} (h : l.Perm l') : total l = total l' := by
  induction h with
  | nil => rfl
  | cons n _ ih => rw [total_cons, total_cons, ih]
  | swap m n l => exact Nat.add_left_comm ..
  | trans _ _ ih ih' => exact ih.trans ih'

/-- Fewer elements weigh no more. -/
theorem total_map_le_of_subperm {α : Type} (w : α → Nat) {l m : List α} (h : l.Subperm m) :
    total (l.map w) ≤ total (m.map w) := by
  obtain ⟨l', hperm, hsub⟩ := h
  rw [← total_perm (hperm.map w)]
  clear hperm
  induction hsub with
  | slnil => exact Nat.le_refl _
  | cons a _ ih =>
    rw [List.map_cons, total_cons]
    exact Nat.le_trans ih (Nat.le_add_left ..)
  | cons_cons a _ ih =>
    rw [List.map_cons, List.map_cons, total_cons, total_cons]
    exact Nat.add_le_add_left ih _

namespace Buffer

/-- Bytes allocated, exactly. -/
def bytes (b : Buffer) : Nat := b.allocated.toNat * b.tileBytes.toNat

/-- Bytes of the L1 of a core that the buffer occupies. -/
def bytesOn (b : Buffer) (core : Core) : Nat := if b.usesL1 && b.core == core then b.bytes else 0

private theorem toNat_allocatedBytes (b : Buffer) :
    b.allocatedBytes.toNat = min b.bytes maxWord64 :=
  toNat_clamp64 _

/-- A buffer in L1 has all of its bytes on its own core. -/
theorem bytesOn_self {b : Buffer} (h : b.usesL1 = true) : b.bytesOn b.core = b.bytes := by
  simp [bytesOn, h]

end Buffer

namespace Epoch

/-- Bytes that the L1 buffers of a core occupy, exactly. -/
def usedL1 (e : Epoch) (core : Core) : Nat :=
  total ((e.buffers.values.filter fun b => b.usesL1 && b.core == core).map (·.bytes))

/-- What is used on a core is the sum over all buffers. -/
theorem usedL1_eq (e : Epoch) (core : Core) :
    e.usedL1 core = total (e.buffers.values.map (·.bytesOn core)) := total_map_filter ..

/-- A stored buffer is part of what its core uses. -/
theorem bytes_le_usedL1 {e : Epoch} {id : BufferId} {b : Buffer}
    (hb : e.buffers.get? id = some b) (h : b.usesL1 = true) : b.bytes ≤ e.usedL1 b.core := by
  rw [usedL1_eq, ← b.bytesOn_self h]
  exact le_total_of_mem (·.bytesOn b.core) (Table.mem_values_of_get? hb)

/-- A new allocation changes the bytes on a core by what the buffer occupies there. -/
theorem usedL1_setAllocated {e : Epoch} {id : BufferId} {b : Buffer}
    (hb : e.buffers.get? id = some b) (tiles : UInt64) (core : Core) :
    (e.setAllocated id tiles).usedL1 core + b.bytesOn core =
      e.usedL1 core + { b with allocated := tiles }.bytesOn core := by
  rw [usedL1_eq, usedL1_eq]
  exact Table.total_modify hb (fun b => { b with allocated := tiles }) (·.bytesOn core)

end Epoch

namespace Ledger

/-- The bytes left are the capacity less what is allocated, or nothing. -/
theorem toNat_available (l : Ledger) (core : Core) :
    (l.available core).toNat = l.capacity.toNat - (l.allocated core).toNat := toNat_satSub ..

/-- Charging buffers one by one, stopping at the largest word each time, is the same as stopping
once at the end. -/
theorem toNat_foldl_charge (l : List Buffer) (used : Table Core UInt64) (core : Core) :
    (((l.foldl charge used).get? core).getD 0).toNat =
      min (((used.get? core).getD 0).toNat + total ((l.filter (·.core == core)).map (·.bytes)))
        maxWord64 := by
  induction l generalizing used with
  | nil =>
    have hlt := ((used.get? core).getD 0).toNat_lt
    have hmax : maxWord64 = 2 ^ 64 - 1 := rfl
    simp only [List.foldl_nil, List.filter_nil, List.map_nil, total_nil]
    omega
  | cons b l ih =>
    rw [List.foldl_cons, ih, List.filter_cons]
    by_cases hb : b.core = core
    · have hcharge : (((charge used b).get? core).getD 0).toNat =
          min (((used.get? core).getD 0).toNat + min b.bytes maxWord64) maxWord64 := by
        rw [charge, Table.get?_insert, if_pos hb, hb, Option.getD_some, satAdd, toNat_clamp64,
          Buffer.toNat_allocatedBytes]
      rw [hcharge, if_pos (beq_iff_eq.2 hb), List.map_cons, total_cons]
      omega
    · rw [charge, Table.get?_insert, if_neg hb, if_neg (by simpa using hb)]

/-- The ledger counts the L1 buffers of the epoch, up to the largest word, within its budget. -/
structure Accounts (l : Ledger) (e : Epoch) : Prop where
  capacity : l.capacity = e.device.l1Budget
  allocated : ∀ core, (l.allocated core).toNat = min (e.usedL1 core) maxWord64
  within : ∀ core, (l.allocated core).toNat ≤ l.capacity.toNat

/-- The L1 buffers of an epoch are charged to their cores. -/
theorem toNat_charged (e : Epoch) (core : Core) :
    ((((e.buffers.values.filter (·.usesL1)).foldl charge .empty).get? core).getD 0).toNat =
      min (e.usedL1 core) maxWord64 := by
  rw [toNat_foldl_charge, Epoch.usedL1, List.filter_filter]
  simp [Bool.and_comm]

/-- A ledger made from an epoch accounts for it. -/
theorem ofEpoch_accounts {e : Epoch} {l : Ledger} (h : ofEpoch e = .ok l) : l.Accounts e := by
  unfold ofEpoch at h
  dsimp only at h
  split at h
  · cases h
  · rename_i hnone
    cases h
    refine ⟨rfl, fun core => ?_, fun core => ?_⟩
    · exact toNat_charged e core
    · unfold allocated
      dsimp only
      cases hcore : Table.get? _ core with
      | none => simp
      | some bytes =>
        have hle := List.find?_eq_none.1 hnone _ (Table.get?_eq_some_iff.1 hcore)
        simpa [UInt64.lt_iff_toNat_lt] using hle

/-- An epoch whose buffers, counted up to the largest word, fit the budget on every core has a
ledger. -/
theorem exists_ofEpoch {e : Epoch}
    (h : ∀ core, min (e.usedL1 core) maxWord64 ≤ e.device.l1Budget.toNat) :
    ∃ l, ofEpoch e = .ok l := by
  unfold ofEpoch
  dsimp only
  split
  · rename_i core bytes hfind
    have hover := List.find?_some hfind
    have hused := toNat_charged e core
    rw [Table.get?_eq_some_iff.2 (List.mem_of_find?_eq_some hfind), Option.getD_some] at hused
    simp only [decide_eq_true_eq, UInt64.lt_iff_toNat_lt] at hover
    have hfits := h core
    omega
  · exact ⟨_, rfl⟩

/-- Accounting only looks at the buffers and the budget. -/
theorem Accounts.congr {l : Ledger} {e e' : Epoch} (h : l.Accounts e)
    (hd : e'.device = e.device) (hb : e'.buffers = e.buffers) : l.Accounts e' where
  capacity := hd ▸ h.capacity
  allocated := by
    intro core
    rw [Epoch.usedL1, hb]
    exact h.allocated core
  within := h.within

/-- What is left on a core is what the budget exceeds the exact count by. -/
theorem Accounts.left_eq {l : Ledger} {e : Epoch} (h : l.Accounts e) (core : Core) :
    (l.available core).toNat = e.device.l1Budget.toNat - e.usedL1 core := by
  have hcount := h.allocated core
  have hword := e.device.l1Budget.toNat_lt
  have hmax : maxWord64 = 2 ^ 64 - 1 := rfl
  rw [l.toNat_available, h.capacity]
  omega

/-- Below the largest budget the count is exact. -/
theorem Accounts.usedL1_le {l : Ledger} {e : Epoch} (h : l.Accounts e)
    (hb : e.device.l1Budget.toNat < maxWord64) (core : Core) :
    e.usedL1 core ≤ e.device.l1Budget.toNat ∧
      (l.available core).toNat + e.usedL1 core = e.device.l1Budget.toNat := by
  have hcount := h.allocated core
  have hwithin := h.within core
  have hleft := l.toNat_available core
  rw [h.capacity] at hwithin hleft
  omega

/-- A granted reservation fits, and is counted on its core. -/
theorem reserve_eq_ok {l l' : Ledger} {core : Core} {bytes : UInt64}
    (h : l.reserve core bytes = (.ok (), l')) :
    bytes.toNat ≤ (l.available core).toNat ∧ l'.capacity = l.capacity ∧
      ∀ k, l'.allocated k = if core = k then l.allocated core + bytes else l.allocated k := by
  unfold reserve at h
  split at h
  · cases h
  · rename_i hfits
    cases h
    refine ⟨by simpa [UInt64.lt_iff_toNat_lt] using hfits, rfl, fun k => ?_⟩
    rw [allocated, Table.get?_insert]
    split <;> rfl

/-- A refused reservation leaves the ledger alone. -/
theorem reserve_eq_error {l l' : Ledger} {core : Core} {bytes : UInt64} {x : CapacityError}
    (h : l.reserve core bytes = (.error x, l')) : l' = l := by
  unfold reserve at h
  split at h
  · cases h
    rfl
  · cases h

/-- A granted reservation on a core in use is counted exactly, and leaves the core within the
capacity. Something is counted already, so less than the largest word is left and the cost is
exact. -/
theorem Accounts.reserve_exact {l l' : Ledger} {e : Epoch} (h : l.Accounts e) {core : Core}
    {cost : Nat} (hused : 0 < e.usedL1 core) (hcost : 0 < cost)
    (hr : l.reserve core (clamp64 cost) = (.ok (), l')) :
    l'.capacity = l.capacity ∧ e.usedL1 core + cost ≤ l.capacity.toNat ∧
      ∀ k, (l'.allocated k).toNat = (l.allocated k).toNat + if core = k then cost else 0 := by
  obtain ⟨hfits, hcapacity, hcount⟩ := reserve_eq_ok hr
  have hword := l.capacity.toNat_lt
  have hmax : maxWord64 = 2 ^ 64 - 1 := rfl
  have hallocated := h.allocated core
  have hwithin := h.within core
  rw [toNat_clamp64, toNat_available] at hfits
  have hexact : (clamp64 cost).toNat = cost := by
    rw [toNat_clamp64]
    omega
  refine ⟨hcapacity, by omega, fun k => ?_⟩
  rw [hcount]
  by_cases hk : core = k
  · subst hk
    rw [if_pos rfl, if_pos rfl, UInt64.toNat_add, hexact, Nat.mod_eq_of_lt (by omega)]
  · rw [if_neg hk, if_neg hk, Nat.add_zero]

end Ledger

end TorusRouting
