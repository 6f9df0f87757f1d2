import Mathlib.Data.List.Dedup
import Mathlib.Data.List.Induction
import Mathlib.Data.List.Perm.Subperm
import TorusRouting.Proofs.Routing.Classification
import TorusRouting.Proofs.Routing.Load

/-!
# What the tally keeps

The tally has one place for each input of each op. A decision over the on-chip networks that feeds
an input takes its place, also from a decision before it, so the tally keeps the last decision for
each input. The feeds of an op are those of the decisions it keeps, in another order. So an op has
no more feeds than there are inputs of it with a buffer, and fewer than `2 ^ 31` of these can be
counted.
-/

namespace TorusRouting

namespace Feed

/-- Writing under an input removes what was written there. The list is ascending, so an input at or
below its head stands nowhere else in it. -/
theorem put_perm (i : UInt64) (f : Feed) {l : List (UInt64 × Feed)}
    (hl : l.Pairwise (·.1 < ·.1)) : (put i f l).Perm ((i, f) :: l.filter (·.1 ≠ i)) := by
  induction l with
  | nil => exact .refl _
  | cons x l ih =>
    obtain ⟨j, g⟩ := x
    rw [List.pairwise_cons] at hl
    have hself (hij : i ≤ j) : l.filter (·.1 ≠ i) = l := by
      refine List.filter_eq_self.2 fun y hy => decide_eq_true fun heq => ?_
      have hlt := hl.1 y hy
      rw [heq] at hlt
      exact UInt64.not_le.2 hlt hij
    rw [put]
    split
    · rename_i hij
      have hne : j ≠ i := fun heq => UInt64.lt_irrefl i (heq ▸ hij)
      rw [List.filter_cons_of_pos (by simpa using hne), hself (UInt64.le_of_lt hij)]
    · rename_i hij
      split
      · rename_i hji
        have hne : j ≠ i := fun heq => UInt64.lt_irrefl i (heq ▸ hji)
        rw [List.filter_cons_of_pos (by simpa using hne)]
        exact ((ih hl.2).cons _).trans (.swap ..)
      · rename_i hji
        have heq : j = i := UInt64.le_antisymm (UInt64.not_lt.1 hij) (UInt64.not_lt.1 hji)
        rw [List.filter_cons_of_neg (by simp [heq]), hself (UInt64.not_lt.1 hji)]

/-- The feeds of an op stay ordered by their inputs. -/
theorem put_pairwise (i : UInt64) (f : Feed) {l : List (UInt64 × Feed)}
    (hl : l.Pairwise (·.1 < ·.1)) : (put i f l).Pairwise (·.1 < ·.1) := by
  induction l with
  | nil => exact List.pairwise_singleton _ _
  | cons x l ih =>
    obtain ⟨j, g⟩ := x
    have hcons := hl
    rw [List.pairwise_cons] at hl
    rw [put]
    split
    · rename_i hij
      refine List.pairwise_cons.2 ⟨fun y hy => ?_, hcons⟩
      rcases List.mem_cons.1 hy with rfl | hy
      · exact hij
      · exact UInt64.lt_trans hij (hl.1 y hy)
    · rename_i hij
      split
      · rename_i hji
        refine List.pairwise_cons.2 ⟨fun y hy => ?_, ih hl.2⟩
        rcases List.mem_cons.1 ((put_perm i f hl.2).subset hy) with rfl | hy
        · exact hji
        · exact hl.1 y (List.mem_filter.1 hy).1
      · rename_i hji
        have heq : j = i := UInt64.le_antisymm (UInt64.not_lt.1 hij) (UInt64.not_lt.1 hji)
        exact List.pairwise_cons.2 ⟨heq ▸ hl.1, hl.2⟩

/-- An input above all others goes to the end. -/
theorem put_of_lt {i : UInt64} {f : Feed} {l : List (UInt64 × Feed)} (h : ∀ x ∈ l, x.1 < i) :
    put i f l = l ++ [(i, f)] := by
  induction l with
  | nil => rfl
  | cons x l ih =>
    rw [List.forall_mem_cons] at h
    rw [put, if_neg (UInt64.not_lt.2 (UInt64.le_of_lt h.1)), if_pos h.1, ih h.2, List.cons_append]

end Feed

namespace Decision

/-- What the tally remembers of a decision. -/
def feed (d : Decision) : Feed := ⟨d.pipe, d.cls.loopback, d.cls.loopback && !d.cls.multicast⟩

/-- The place of a decision in the tally: the input it feeds over the on-chip networks. -/
def place? (d : Decision) : Option (String × UInt64) :=
  match d.cls.destOp, d.routing.route with
  | some op, some _ => some (op, d.cls.input)
  | _, _ => none

/-- The decision feeds an input of the op over the on-chip networks. -/
def Feeds (d : Decision) (op : String) : Prop := d.place? = some (op, d.cls.input)

instance (d : Decision) (op : String) : Decidable (d.Feeds op) :=
  inferInstanceAs (Decidable (_ = _))

/-- A decision feeds the op that its class names, if it has a route. -/
theorem feeds_iff {d : Decision} {op : String} :
    d.Feeds op ↔ d.cls.destOp = some op ∧ d.routing.route.isSome := by
  unfold Feeds place?
  cases d.cls.destOp <;> cases d.routing.route <;> simp

/-- A decision with a place feeds the op of that place, at its input. -/
theorem feeds_of_place {d : Decision} {op : String} {i : UInt64} (h : d.place? = some (op, i)) :
    d.Feeds op ∧ d.cls.input = i := by
  have hi : d.cls.input = i := by
    unfold place? at h
    split at h <;> cases h
    rfl
  exact ⟨by rw [Feeds, h, hi], hi⟩

end Decision

/-- The input and feed that the tally holds for a decision. -/
def Decision.entry (d : Decision) : UInt64 × Feed := (d.cls.input, d.feed)

/-- The feeds of an op with their inputs. -/
def Balancer.entries (t : Balancer) (op : String) : List (UInt64 × Feed) := (t.ops.get? op).getD []

namespace Epoch

/-- The decisions that the tally keeps: those with a place in it that no later one takes. -/
def tallied : List Decision → List Decision
  | [] => []
  | d :: ds =>
    if d.place?.isSome ∧ ∀ d' ∈ ds, d'.place? ≠ d.place? then d :: tallied ds else tallied ds

/-- Decisions are tallied in the order in which they were made. -/
theorem tallied_sublist (ds : List Decision) : (tallied ds).Sublist ds := by
  induction ds with
  | nil => exact .slnil
  | cons d ds ih =>
    rw [tallied]
    split
    · exact ih.cons_cons d
    · exact ih.cons d

/-- A decision without a place changes nothing. -/
theorem tallied_append_none {d : Decision} (h : d.place? = none) (ds : List Decision) :
    tallied (ds ++ [d]) = tallied ds := by
  induction ds with
  | nil => simp [tallied, h]
  | cons a ds ih =>
    rw [List.cons_append, tallied, tallied, ih]
    refine if_congr ?_ rfl rfl
    simp only [List.forall_mem_append, List.forall_mem_singleton, h]
    refine and_congr_right fun hsome => and_iff_left fun heq => ?_
    rw [← heq] at hsome
    cases hsome

/-- A decision takes its place from whatever was there. -/
theorem tallied_append_some {d : Decision} (h : d.place?.isSome) (ds : List Decision) :
    tallied (ds ++ [d]) = (tallied ds).filter (·.place? ≠ d.place?) ++ [d] := by
  induction ds with
  | nil => simp [tallied, h]
  | cons a ds ih =>
    rw [List.cons_append, tallied, tallied, ih]
    by_cases ha : a.place? = d.place?
    · have hlost : ¬ ∀ d' ∈ ds ++ [d], d'.place? ≠ a.place? := fun hall =>
        hall d (List.mem_append_right _ (List.mem_cons_self ..)) ha.symm
      rw [if_neg fun hkept => hlost hkept.2]
      split
      · rw [List.filter_cons_of_neg (by simp [ha])]
      · rfl
    · have hlast : (∀ d' ∈ ds ++ [d], d'.place? ≠ a.place?) ↔ ∀ d' ∈ ds, d'.place? ≠ a.place? := by
        rw [List.forall_mem_append, List.forall_mem_singleton]
        exact and_iff_left (Ne.symm ha)
      by_cases hkept : a.place?.isSome ∧ ∀ d' ∈ ds, d'.place? ≠ a.place?
      · rw [if_pos hkept, if_pos ⟨hkept.1, hlast.2 hkept.2⟩,
          List.filter_cons_of_pos (by simpa using ha), List.cons_append]
      · rw [if_neg hkept, if_neg fun h => hkept ⟨h.1, hlast.1 h.2⟩]

private theorem tally_append_none {d : Decision} (h : d.place? = none) (ds : List Decision) :
    tally (ds ++ [d]) = tally ds := by
  rw [tally, List.foldl_append, ← tally, List.foldl_cons, List.foldl_nil]
  cases hop : d.cls.destOp with
  | none => rfl
  | some op =>
    cases hl : d.routing.route with
    | none => rfl
    | some l =>
      rw [Decision.place?, hop, hl] at h
      cases h

/-- Only the feeds of the op change that the new decision feeds. -/
theorem tally_append_some {d : Decision} {op : String} (h : d.Feeds op) (ds : List Decision)
    (op' : String) : (tally (ds ++ [d])).entries op' =
      if op = op' then Feed.put d.cls.input d.feed ((tally ds).entries op)
      else (tally ds).entries op' := by
  obtain ⟨hop, hroute⟩ := Decision.feeds_iff.1 h
  obtain ⟨l, hl⟩ := Option.isSome_iff_exists.1 hroute
  rw [tally, List.foldl_append, ← tally, List.foldl_cons, List.foldl_nil]
  simp only [hop, hl, Balancer.entries, Balancer.record, Table.get?_insert]
  split <;> rfl

/-- The feeds of an op are ascending in its inputs. -/
theorem entries_pairwise (ds : List Decision) (op : String) :
    ((tally ds).entries op).Pairwise (·.1 < ·.1) := by
  induction ds using List.reverseRecOn with
  | nil => exact .nil
  | append_singleton ds d ih =>
    cases hd : d.place? with
    | none => rwa [tally_append_none hd]
    | some place =>
      obtain ⟨op', i⟩ := place
      rw [tally_append_some (Decision.feeds_of_place hd).1]
      split
      · rename_i heq
        rw [heq]
        exact Feed.put_pairwise _ _ ih
      · exact ih

/-- The feeds of an op are those of the decisions that the tally keeps. -/
theorem entries_perm (ds : List Decision) (op : String) :
    ((tally ds).entries op).Perm (((tallied ds).filter (·.Feeds op)).map (·.entry)) := by
  induction ds using List.reverseRecOn with
  | nil => exact .nil
  | append_singleton ds d ih =>
    cases hd : d.place? with
    | none => rwa [tally_append_none hd, tallied_append_none hd]
    | some place =>
      obtain ⟨op', i⟩ := place
      obtain ⟨hfeeds, rfl⟩ := Decision.feeds_of_place hd
      rw [tally_append_some hfeeds, tallied_append_some (by simp [hd]), List.filter_append,
        List.filter_filter, List.map_append]
      by_cases hop : op' = op
      · subst hop
        have hplace : (tallied ds).filter (fun a => a.Feeds op' && a.place? ≠ d.place?) =
            ((tallied ds).filter (·.Feeds op')).filter (·.cls.input ≠ d.cls.input) := by
          rw [List.filter_filter]
          refine List.filter_congr fun a _ => ?_
          by_cases ha : a.Feeds op'
          · have haplace : a.place? = some (op', a.cls.input) := ha
            simp [ha, haplace, hd]
          · simp [ha]
        rw [if_pos rfl, hplace, List.filter_cons_of_pos (by simpa using hfeeds), List.filter_nil]
        refine (Feed.put_perm _ _ (entries_pairwise ds op')).trans ?_
        refine (List.Perm.cons _ (ih.filter _)).trans ?_
        rw [List.filter_map]
        exact (List.perm_append_singleton _ _).symm
      · have hnot : ¬ d.Feeds op := fun h => hop (Prod.mk.inj (Option.some.inj (hd.symm.trans h))).1
        have hplace : (tallied ds).filter (fun a => a.Feeds op && a.place? ≠ d.place?) =
            (tallied ds).filter (·.Feeds op) := by
          refine List.filter_congr fun a _ => ?_
          by_cases ha : a.Feeds op
          · have haplace : a.place? = some (op, a.cls.input) := ha
            simp [ha, haplace, hd, Ne.symm hop]
          · simp [ha]
        rw [if_neg hop, hplace, List.filter_cons_of_neg (by simpa using hnot), List.filter_nil,
          List.map_nil, List.append_nil]
        exact ih

/-! ## Inputs with a buffer -/

variable {e : Epoch} {config : Config} {oracle : Oracle} {ds : List Decision}

/-- The inputs that the buffers name of the ops with the given name. -/
def inputsOf (e : Epoch) (op : String) : List UInt64 :=
  (((e.buffers.values.filterMap fun b => (e.consumerOf b).toOption).filter (·.1.name = op)).map
    (·.2)).dedup

/-- A buffer that an op reads is one of its inputs. -/
theorem mem_inputsOf {b : Buffer} (hb : b ∈ e.buffers.values) {op : Op} {input : UInt64}
    (h : e.consumerOf b = .ok (op, input)) : input ∈ e.inputsOf op.name := by
  rw [inputsOf, List.mem_dedup, List.mem_map]
  refine ⟨(op, input), List.mem_filter.2 ⟨List.mem_filterMap.2 ⟨b, hb, ?_⟩, ?_⟩, rfl⟩
  · rw [h]
    rfl
  · exact decide_eq_true rfl

/-- Inputs below `n` are at most `n` inputs. -/
theorem length_inputsOf_le {n : Nat} (h : ∀ b ∈ e.buffers.values, ∀ op input,
    b.owner = some (.consumer op input) → input.toNat < n) (op : String) :
    (e.inputsOf op).length ≤ n := by
  have hnodup : ((e.inputsOf op).map UInt64.toNat).Nodup :=
    (List.nodup_dedup _).map fun _ _ => UInt64.toNat_inj.1
  have hsub : (e.inputsOf op).map UInt64.toNat ⊆ List.range n := by
    intro i hi
    obtain ⟨input, hinput, rfl⟩ := List.mem_map.1 hi
    rw [inputsOf, List.mem_dedup, List.mem_map] at hinput
    obtain ⟨⟨consumer, input⟩, hfeed, rfl⟩ := hinput
    obtain ⟨b, hb, hconsumer⟩ := List.mem_filterMap.1 (List.mem_filter.1 hfeed).1
    cases hok : e.consumerOf b with
    | error x =>
      rw [hok] at hconsumer
      cases hconsumer
    | ok feed =>
      rw [hok] at hconsumer
      cases hconsumer
      obtain ⟨key, howner, _⟩ := consumerOf_eq_ok.1 hok
      exact List.mem_range.2 (h b hb key input howner)
  have hle := (List.subperm_of_subset hnodup hsub).length_le
  rwa [List.length_map, List.length_range] at hle

/-- A decision is the class of its pipe, and a routing that was selected for it. -/
theorem decidePipe_eq_ok {p : Pipe} {d : Decision} (h : e.decidePipe config oracle p = .ok d) :
    e.classify oracle p = .ok d.cls ∧ e.select config p d.cls = .ok d.routing ∧ d.pipe = p.id := by
  obtain ⟨c, hc, h⟩ := bind_eq_ok.1 h
  obtain ⟨r, hr, h⟩ := bind_eq_ok.1 h
  cases pure_eq_ok.1 h
  exact ⟨hc, hr, rfl⟩

/-- A decision that feeds an op was made for a pipe into a buffer of that input. -/
theorem decisions_receiver (hd : e.decisions config oracle = .ok ds) {d : Decision} (hmem : d ∈ ds)
    {op : String} (hfeeds : d.Feeds op) :
    ∃ consumer ∈ e.ops.values, consumer.name = op ∧ d.cls.input ∈ e.inputsOf op := by
  obtain ⟨p, _, hdecide⟩ := exists_left_of_forall₂ (mapM_eq_ok.1 hd) hmem
  obtain ⟨_, dst, hends, _, hclass⟩ := classifies_of_classify (decidePipe_eq_ok hdecide).1
  obtain ⟨consumer, hconsumer, rfl⟩ := hclass.receiver (Decision.feeds_iff.1 hfeeds).1
  obtain ⟨_, _, hdst⟩ := hends.dest
  obtain ⟨_, _, hop⟩ := consumerOf_eq_ok.1 hconsumer
  exact ⟨consumer, Table.mem_values_of_get? hop, rfl,
    mem_inputsOf (Table.mem_values_of_get? hdst) hconsumer⟩

/-- An op has no more feeds than inputs. -/
theorem length_feeds_le (hd : e.decisions config oracle = .ok ds) (op : String) :
    ((tally ds).feeds op).length ≤ (e.inputsOf op).length := by
  have hnodup : (((tally ds).entries op).map (·.1)).Nodup :=
    List.pairwise_map.2 ((entries_pairwise ds op).imp UInt64.ne_of_lt)
  have hsub : ((tally ds).entries op).map (·.1) ⊆ e.inputsOf op := by
    intro i hi
    obtain ⟨entry, hentry, rfl⟩ := List.mem_map.1 hi
    obtain ⟨d, hkept, rfl⟩ := List.mem_map.1 ((entries_perm ds op).subset hentry)
    obtain ⟨htallied, hfeeds⟩ := List.mem_filter.1 hkept
    obtain ⟨_, _, _, hinput⟩ := decisions_receiver hd ((tallied_sublist ds).subset htallied)
      (of_decide_eq_true hfeeds)
    exact hinput
  calc ((tally ds).feeds op).length
    _ = (((tally ds).entries op).map (·.1)).length := by
      rw [Balancer.feeds, Balancer.entries, List.length_map, List.length_map]
    _ ≤ (e.inputsOf op).length := (List.subperm_of_subset hnodup hsub).length_le

/-- The feeds of every op can be counted if no op has `2 ^ 31` inputs. An op that is not stored has
no feeds. -/
theorem length_feeds_lt (hd : e.decisions config oracle = .ok ds)
    (hinputs : ∀ op ∈ e.ops.values, (e.inputsOf op.name).length < 2 ^ 31) (op : String) :
    ((tally ds).feeds op).length < 2 ^ 31 := by
  cases hentries : (tally ds).entries op with
  | nil =>
    rw [Balancer.entries] at hentries
    rw [Balancer.feeds, hentries]
    decide
  | cons entry l =>
    have hmem : entry ∈ (tally ds).entries op := by
      rw [hentries]
      exact List.mem_cons_self ..
    obtain ⟨d, hkept, _⟩ := List.mem_map.1 ((entries_perm ds op).subset hmem)
    obtain ⟨htallied, hfeeds⟩ := List.mem_filter.1 hkept
    obtain ⟨consumer, hstored, hname, _⟩ := decisions_receiver hd
      ((tallied_sublist ds).subset htallied) (of_decide_eq_true hfeeds)
    have hlt := hinputs consumer hstored
    rw [hname] at hlt
    exact Nat.lt_of_le_of_lt (length_feeds_le hd op) hlt

end Epoch

end TorusRouting
