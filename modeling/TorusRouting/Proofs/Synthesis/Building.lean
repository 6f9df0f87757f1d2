import Mathlib
import TorusRouting.Proofs.File.RoundTrip
import TorusRouting.Proofs.Routing.Success
import TorusRouting.Proofs.Synthesis.Placement

/-!
# Steps of a construction that succeed

A step of the construction has a cost: the L1 buffers it may add, by their cores, the queues, and
the pipes. Where as much is left, the step succeeds, whatever is drawn, and keeps the epoch sound:
ids stay new, the L1 of no core runs over, and every pipe can be routed. Costs of steps in sequence
add up.
-/

namespace TorusRouting

open Randomness

/-! ## Numbered tables -/

/-- The keys of a table have numbers below `next`, which counts from `1`. -/
structure Table.Numbered {κ α : Type} (t : Table κ α) (number : κ → UInt64) (next : UInt64) :
    Prop where
  below : ∀ k ∈ t.keys, number k < next
  size : t.size < next.toNat

namespace Table.Numbered

variable {κ α : Type} {t : Table κ α} {number : κ → UInt64} {next : UInt64}

private theorem notMem (h : t.Numbered number next) {k : κ} (hk : number k = next) :
    k ∉ t.keys := by
  intro hmem
  exact UInt64.lt_irrefl next (hk ▸ h.below k hmem)

/-- The next number is new. -/
theorem insert [DecidableEq κ] (h : t.Numbered number next) {k : κ} (hk : number k = next)
    (hroom : next.toNat + 1 < UInt64.size) (a : α) :
    (t.insert k a).Numbered number (next + 1) := by
  have hnext : (next + 1).toNat = next.toNat + 1 := by
    rw [UInt64.toNat_add, UInt64.toNat_one]
    exact Nat.mod_eq_of_lt hroom
  constructor
  · intro j hj
    rw [UInt64.lt_iff_toNat_lt, hnext]
    rw [keys_insert, if_neg (h.notMem hk), List.mem_append, List.mem_singleton] at hj
    rcases hj with hj | rfl
    · have hlt := UInt64.lt_iff_toNat_lt.1 (h.below j hj)
      omega
    · rw [hk]
      omega
  · have hsize := h.size
    rw [Table.size, toList_insert_of_notMem (h.notMem hk), List.length_append, hnext]
    rw [Table.size] at hsize
    simp only [List.length_singleton]
    omega

end Table.Numbered

/-- Only buffers and pipes are added. -/
structure Epoch.Fills (e e' : Epoch) : Prop extends e.Under e' where
  index : e'.index = e.index
  ops : e'.ops = e.ops

namespace Epoch.Fills

variable {e e' e'' : Epoch}

/-- Nothing is built. -/
theorem refl (e : Epoch) : e.Fills e := ⟨.refl e, rfl, rfl⟩

/-- Building goes on. -/
theorem trans (h : e.Fills e') (h' : e'.Fills e'') : e.Fills e'' :=
  ⟨h.toUnder.trans h'.toUnder, h'.index.trans h.index, h'.ops.trans h.ops⟩

end Epoch.Fills

namespace Synthesis

/-! ## Sound states of a construction -/

/-- What may still be added: L1 buffers by their cores, queues, and pipes. -/
abbrev Budget := Multiset Core × Nat × Nat

/-- The most bytes that an L1 buffer is drawn with. -/
def bufferBytes : Nat := 8 * 2080

/-- The most L1 buffers of a core. -/
def coreBuffers : Nat := 7

/-- If the buffer holds an input of an op, it is the first or the second one. -/
def OfTwoInputs (x : Buffer) : Prop :=
  ∀ op input, x.owner = some (.consumer op input) → input.toNat < 2

/-- A state that all of the budget can be added to. -/
structure Builder.Sound (b : Builder) (left : Budget) : Prop where
  wellKeyed : b.epoch.WellKeyed
  buffers : ∀ x ∈ b.epoch.buffers.values, b.epoch.checkBuffer x = .ok () ∧ x.Fits
  inputs : ∀ x ∈ b.epoch.buffers.values, OfTwoInputs x
  pipes : ∀ p ∈ b.epoch.pipes.values, b.epoch.Carries p ∧ p.Fits
  bufferIds : b.epoch.buffers.Numbered (·.val) b.nextBuffer
  pipeIds : b.epoch.pipes.Numbered (·.val) b.nextPipe
  bufferRoom : b.nextBuffer.toNat + left.1.card + left.2.1 ≤ 2 ^ 40
  pipeRoom : b.nextPipe.toNat + left.2.2 ≤ 2 ^ 40
  l1 : ∀ core, b.epoch.usedL1 core + bufferBytes * left.1.count core ≤ bufferBytes * coreBuffers

namespace Builder

variable {b : Builder} {left cost rest : Budget}

/-- A builder that can afford much can afford less. -/
theorem Sound.mono {left' : Budget} (h : b.Sound left) (hle : left' ≤ left) : b.Sound left' :=
  { h with
    bufferRoom := by
      have hcard := Multiset.card_le_card hle.1
      have hqueues := hle.2.1
      have hroom := h.bufferRoom
      omega
    pipeRoom := by
      have hpipes := hle.2.2
      have hroom := h.pipeRoom
      omega
    l1 := by
      intro core
      have hcount := Nat.mul_le_mul_left bufferBytes (Multiset.count_le_of_le core hle.1)
      have hl1 := h.l1 core
      omega }

/-- The next buffer has been added, and the keystream has moved on. -/
def withBuffer (b : Builder) (stream : Keystream) (x : Buffer) : Builder :=
  { b with
    stream
    nextBuffer := b.nextBuffer + 1
    epoch := { b.epoch with buffers := b.epoch.buffers.insert x.id x } }

/-- The next pipe has been added. -/
def withPipe (b : Builder) (p : Pipe) : Builder :=
  { b with
    nextPipe := b.nextPipe + 1
    epoch := { b.epoch with pipes := b.epoch.pipes.insert p.id p } }

private theorem word_room {n : Nat} (h : n ≤ 2 ^ 40) : n < UInt64.size :=
  Nat.lt_of_le_of_lt h (by decide)

/-- There is an id for a buffer of the budget. -/
theorem Sound.nextBuffer_lt (h : b.Sound left) (hroom : 0 < left.1.card + left.2.1) :
    b.nextBuffer.toNat + 1 < UInt64.size := by
  have hbufferRoom := h.bufferRoom
  exact word_room (by omega)

/-- There is an id for a pipe of the budget. -/
theorem Sound.nextPipe_lt (h : b.Sound left) (hroom : 0 < left.2.2) :
    b.nextPipe.toNat + 1 < UInt64.size := by
  have hpipeRoom := h.pipeRoom
  exact word_room (by omega)

section

variable {x : Buffer} (h : b.Sound (cost + rest)) (hid : x.id = ⟨b.nextBuffer⟩)

include h hid

private theorem fills_withBuffer (stream : Keystream) :
    b.epoch.Fills (b.withBuffer stream x).epoch := by
  have hnew := h.bufferIds.notMem (congrArg BufferId.val hid)
  exact ⟨⟨rfl, id, fun hy => Table.get?_insert_of_notMem hnew hy x⟩, rfl, rfl⟩

/-- A buffer with the next number is added. -/
theorem addBuffer_eq_ok (stream : Keystream) :
    b.epoch.addBuffer x = .ok (b.withBuffer stream x).epoch :=
  Epoch.addBuffer_eq_ok.2 ⟨h.bufferIds.notMem (congrArg BufferId.val hid), rfl⟩

/-- Adding a valid buffer that the cost covers leaves the rest of the budget. -/
theorem sound_withBuffer (hcheck : b.epoch.checkBuffer x = .ok ()) (hfits : x.Fits)
    (hinputs : OfTwoInputs x) (hroom : 0 < cost.1.card + cost.2.1)
    (hbytes : ∀ core, x.bytesOn core ≤ bufferBytes * cost.1.count core) (stream : Keystream) :
    (b.withBuffer stream x).Sound rest := by
  have hbufferRoom := h.bufferRoom
  have hpipeRoom := h.pipeRoom
  simp only [Prod.fst_add, Prod.snd_add, Multiset.card_add] at hbufferRoom hpipeRoom
  have hnumber : x.id.val = b.nextBuffer := congrArg BufferId.val hid
  have hword : b.nextBuffer.toNat + 1 < UInt64.size := word_room (by omega)
  have hnext : (b.nextBuffer + 1).toNat = b.nextBuffer.toNat + 1 := by
    rw [UInt64.toNat_add, UInt64.toNat_one]
    exact Nat.mod_eq_of_lt hword
  have hvalues := Table.values_insert_of_notMem (h.bufferIds.notMem hnumber) x
  have hunder := (fills_withBuffer h hid stream).toUnder
  refine ⟨⟨h.wellKeyed.ops, h.wellKeyed.buffers.insert x, h.wellKeyed.pipes⟩, ?_, ?_, ?_,
    h.bufferIds.insert hnumber hword x, h.pipeIds, ?_, ?_, ?_⟩
  · intro y hy
    rw [withBuffer, hvalues, List.mem_append, List.mem_singleton] at hy
    rcases hy with hy | rfl
    · exact h.buffers y hy
    · exact ⟨hcheck, hfits⟩
  · intro y hy
    rw [withBuffer, hvalues, List.mem_append, List.mem_singleton] at hy
    rcases hy with hy | rfl
    · exact h.inputs y hy
    · exact hinputs
  · intro p hp
    exact ⟨hunder.carries (h.pipes p hp).1, (h.pipes p hp).2⟩
  · simp only [withBuffer, hnext]
    omega
  · simp only [withBuffer]
    omega
  · intro core
    have hl1 := h.l1 core
    have hused := hbytes core
    rw [Prod.fst_add, Multiset.count_add, Nat.mul_add] at hl1
    rw [Epoch.usedL1_eq] at hl1 ⊢
    rw [withBuffer, hvalues, List.map_append, total_append]
    simp only [List.map_cons, List.map_nil, total_cons, total_nil]
    omega

end

section

variable {p : Pipe} (h : b.Sound (cost + rest)) (hid : p.id = ⟨b.nextPipe⟩)

include h hid

/-- A pipe with the next number is added. -/
theorem addPipe_eq_ok : b.epoch.addPipe p = .ok (b.withPipe p).epoch :=
  Epoch.addPipe_eq_ok.2 ⟨h.pipeIds.notMem (congrArg PipeId.val hid), rfl⟩

/-- Adding a valid pipe that the cost covers leaves the rest of the budget. -/
theorem sound_withPipe (hp : b.epoch.Carries p) (hfits : p.Fits) (hroom : 0 < cost.2.2) :
    (b.withPipe p).Sound rest := by
  have hbufferRoom := h.bufferRoom
  have hpipeRoom := h.pipeRoom
  simp only [Prod.fst_add, Prod.snd_add, Multiset.card_add] at hbufferRoom hpipeRoom
  have hnumber : p.id.val = b.nextPipe := congrArg PipeId.val hid
  have hword : b.nextPipe.toNat + 1 < UInt64.size := word_room (by omega)
  have hnext : (b.nextPipe + 1).toNat = b.nextPipe.toNat + 1 := by
    rw [UInt64.toNat_add, UInt64.toNat_one]
    exact Nat.mod_eq_of_lt hword
  have hvalues := Table.values_insert_of_notMem (h.pipeIds.notMem hnumber) p
  have hunder : b.epoch.Under (b.withPipe p).epoch := ⟨rfl, id, id⟩
  refine ⟨⟨h.wellKeyed.ops, h.wellKeyed.buffers, h.wellKeyed.pipes.insert p⟩, h.buffers, h.inputs,
    ?_, h.bufferIds, h.pipeIds.insert hnumber hword p, ?_, ?_, ?_⟩
  · intro q hq
    rw [withPipe, hvalues, List.mem_append, List.mem_singleton] at hq
    rcases hq with hq | rfl
    · exact ⟨hunder.carries (h.pipes q hq).1, (h.pipes q hq).2⟩
    · exact ⟨hunder.carries hp, hfits⟩
  · simp only [withPipe]
    omega
  · simp only [withPipe, hnext]
    omega
  · intro core
    have hl1 := h.l1 core
    rw [Prod.fst_add, Multiset.count_add, Nat.mul_add] at hl1
    change b.epoch.usedL1 core + _ ≤ _
    omega

end

end Builder

/-! ## Runs -/

namespace Build

variable {α β : Type} {b b' : Builder}

/-- After a step that succeeds the next one runs. -/
theorem run_bind_ok {x : Build α} {f : α → Build β} {a : α} (h : x.run.run b = (.ok a, b')) :
    (x >>= f).run.run b = (f a).run.run b' := by
  rw [ExceptT.run_bind, StateT.run_bind, h]
  rfl

/-- A computed value leaves the builder as it is. -/
theorem run_lift {x : Outcome α} {a : α} (h : x = .ok a) (b : Builder) :
    (liftM x : Build α).run.run b = (.ok a, b) := by
  subst h
  rfl

/-- Looking at the builder leaves it as it is. -/
theorem run_get (b : Builder) : (get : Build Builder).run.run b = (.ok b, b) := rfl

/-- A draw gives what it always does, and only the keystream moves. -/
theorem run_draw {d : Draw α} {P : α → Prop} (h : d.Always P) (b : Builder) :
    ∃ a, P a ∧ ∃ stream, (draw d).run.run b = (.ok a, { b with stream }) := by
  obtain ⟨a, stream, hrun, ha⟩ := h b.stream
  refine ⟨a, ha, stream, ?_⟩
  rw [draw, run_bind_ok (run_get b), run_bind_ok (run_lift hrun b)]
  rfl

/-- The next id is taken as long as there is another one. -/
theorem run_freshBuffer (h : b.nextBuffer.toNat + 1 < UInt64.size) : freshBuffer.run.run b =
    (.ok ⟨b.nextBuffer⟩, { b with nextBuffer := b.nextBuffer + 1 }) := by
  rw [freshBuffer, run_bind_ok (run_get b), run_bind_ok (run_lift (next64_eq_ok h) b)]
  rfl

private theorem run_freshPipe (h : b.nextPipe.toNat + 1 < UInt64.size) : freshPipe.run.run b =
    (.ok ⟨b.nextPipe⟩, { b with nextPipe := b.nextPipe + 1 }) := by
  rw [freshPipe, run_bind_ok (run_get b), run_bind_ok (run_lift (next64_eq_ok h) b)]
  rfl

/-- An edit that succeeds replaces the epoch. -/
theorem run_edit {f : Epoch → Outcome Epoch} {e : Epoch} (h : f b.epoch = .ok e) :
    (edit f).run.run b = (.ok (), { b with epoch := e }) := by
  rw [edit, run_bind_ok (run_get b), run_bind_ok (run_lift h b)]
  rfl

/-- The element at a position is there if the position is. -/
theorem element_eq_ok {l : List α} {i : Nat} {a : α} : element l i = .ok a ↔ l[i]? = some a := by
  rw [element]
  cases l[i]? with
  | none =>
    constructor <;>
    · intro h
      cases h
  | some b => rw [Except.ok.injEq, Option.some.injEq]

/-- Every position of a list has an element. -/
theorem exists_element {l : List α} {i : Nat} (hi : i < l.length) :
    ∃ a ∈ l, element l i = .ok a :=
  ⟨l[i], List.getElem_mem hi, element_eq_ok.2 (List.getElem?_eq_getElem hi)⟩

/-- An element of the list is chosen, and only the keystream moves. -/
theorem run_choose {l : List α} (hl : l ≠ []) (b : Builder) :
    ∃ a ∈ l, ∃ stream, (choose l).run.run b = (.ok a, { b with stream }) := by
  obtain ⟨i, hi, stream, hdraw⟩ := run_draw (below64_lt (List.length_pos_iff.2 hl)) b
  obtain ⟨a, ha, helement⟩ := exists_element hi
  refine ⟨a, ha, stream, ?_⟩
  rw [choose, run_bind_ok hdraw]
  exact run_lift helement _

/-! ## Costs -/

/-- From a sound state with the cost and more left in its budget, a step on epoch `e` succeeds, adds
to the epoch, and leaves what was more. -/
def Spends (x : Build α) (cost : Budget) (e : Epoch) (Q : α → Epoch → Prop) : Prop :=
  ∀ (rest : Budget) (b : Builder), b.epoch = e → b.Sound (cost + rest) →
    ∃ a b', x.run.run b = (.ok a, b') ∧ b'.Sound rest ∧ e.Fills b'.epoch ∧ Q a b'.epoch

namespace Spends

variable {x : Build α} {f : α → Build β} {cost cost' : Budget} {e : Epoch} {Q : α → Epoch → Prop}
  {R : β → Epoch → Prop}

/-- A value costs nothing. -/
theorem pure {a : α} (h : Q a e) : Spends (Pure.pure a) 0 e Q := by
  rintro rest b rfl hb
  exact ⟨a, b, rfl, by rwa [zero_add] at hb, .refl _, h⟩

/-- Two steps cost the sum of what each costs. -/
theorem bind (hx : x.Spends cost e Q)
    (hf : ∀ a e', e.Fills e' → Q a e' → (f a).Spends cost' e' R) :
    Spends (x >>= f) (cost + cost') e R := by
  intro rest b he hb
  rw [add_assoc] at hb
  obtain ⟨a, b', hrun, hb', hfills, ha⟩ := hx (cost' + rest) b he hb
  obtain ⟨r, b'', hrun', hb'', hfills', hr⟩ := hf a _ hfills ha rest b' rfl hb'
  exact ⟨r, b'', (run_bind_ok hrun).trans hrun', hb'', hfills.trans hfills', hr⟩

/-- What is not spent may be left over. -/
theorem of_le (h : x.Spends cost e Q) (hle : cost ≤ cost') : x.Spends cost' e Q := by
  intro rest b he hb
  exact h rest b he (hb.mono (add_le_add_left hle rest))

/-- Doing nothing is within any cost. -/
theorem nothing : Spends (Pure.pure ()) cost e fun _ _ => True :=
  (pure (Q := fun _ _ => True) trivial).of_le zero_le

/-- A step, and what remains of the budget for the rest. -/
theorem seq {total : Budget} (left : Budget) (hx : x.Spends cost e Q) (hle : cost + left ≤ total)
    (hf : ∀ a e', e.Fills e' → Q a e' → (f a).Spends left e' R) :
    Spends (x >>= f) total e R := (hx.bind hf).of_le hle

/-- A step that costs nothing. -/
theorem seq_zero (hx : x.Spends 0 e Q)
    (hf : ∀ a e', e.Fills e' → Q a e' → (f a).Spends cost e' R) :
    Spends (x >>= f) cost e R := hx.seq cost (zero_add cost).le hf

/-- Both branches of a choice stay within the cost. -/
theorem ite {c : Prop} [Decidable c] {x₁ x₂ : Build α} (h₁ : c → x₁.Spends cost e Q)
    (h₂ : ¬ c → x₂.Spends cost e Q) : Spends (if c then x₁ else x₂) cost e Q := by
  split
  · exact h₁ ‹_›
  · exact h₂ ‹_›

/-- A draw costs nothing. -/
theorem draw {d : Draw α} {P : α → Prop} (h : d.Always P) :
    (Build.draw d).Spends 0 e fun a _ => P a := by
  rintro rest b rfl hb
  rw [zero_add] at hb
  obtain ⟨a, ha, stream, hrun⟩ := run_draw h b
  exact ⟨a, _, hrun, { hb with }, .refl _, ha⟩

/-- A checked computation costs nothing. -/
theorem lift_bind {x : Outcome α} {a : α} (hx : x = .ok a) (hf : (f a).Spends cost e R) :
    Spends (liftM x >>= f) cost e R := by
  intro rest b he hb
  rw [run_bind_ok (run_lift hx b)]
  exact hf rest b he hb

/-- Looking at the state costs nothing. -/
theorem get_bind {f : Builder → Build β} (hf : ∀ b, b.epoch = e → (f b).Spends cost e R) :
    Spends (get >>= f) cost e R := by
  intro rest b he hb
  rw [run_bind_ok (run_get b)]
  exact hf b he rest b he hb

/-- A choice is free, and gives an element of the list. -/
theorem choose {l : List α} (hl : l ≠ []) :
    (Build.choose l).Spends 0 e fun a _ => a ∈ l := by
  rintro rest b rfl hb
  rw [zero_add] at hb
  obtain ⟨a, ha, stream, hrun⟩ := run_choose hl b
  exact ⟨a, _, hrun, { hb with }, .refl _, ha⟩

/-- The costs of a step for each element of a list add up. -/
theorem forM {γ : Type} {f : γ → Build Unit} {cost : γ → Budget} {l : List γ}
    (h : ∀ c ∈ l, ∀ e', e.Fills e' → (f c).Spends (cost c) e' fun _ _ => True) :
    Spends (l.forM f) (l.map cost).sum e fun _ _ => True := by
  induction l generalizing e with
  | nil => exact pure trivial
  | cons c l ih =>
    rw [List.map_cons, List.sum_cons]
    refine bind (h c (List.mem_cons_self ..) e (.refl e)) fun _ e' hfills _ => ?_
    exact ih fun x hx e'' hfills' => h x (List.mem_cons_of_mem _ hx) e'' (hfills.trans hfills')

/-- A traversal costs what its steps cost together, and what each result satisfies still holds at
the end. -/
theorem mapM {γ : Type} {f : γ → Build α} {cost : γ → Budget} {R : γ → α → Epoch → Prop}
    (hR : ∀ {c a e e'}, e.Fills e' → R c a e → R c a e') {l : List γ}
    (h : ∀ c ∈ l, ∀ e', e.Fills e' → (f c).Spends (cost c) e' (R c)) :
    Spends (l.mapM f) (l.map cost).sum e fun as e' => List.Forall₂ (R · · e') l as := by
  induction l generalizing e with
  | nil =>
    rw [List.mapM_nil]
    exact pure .nil
  | cons c l ih =>
    rw [List.map_cons, List.sum_cons, List.mapM_cons]
    refine bind (h c (List.mem_cons_self ..) e (.refl e)) fun a e' hfills ha => ?_
    have hrest := ih fun x hx e'' hfills' =>
      h x (List.mem_cons_of_mem _ hx) e'' (hfills.trans hfills')
    rw [← add_zero (l.map cost).sum]
    refine bind hrest fun as e'' hfills' has => pure (.cons (hR hfills' ha) has)

end Spends

/-! ## Buffers and pipes -/

/-- An L1 buffer costs itself on its core. -/
def l1Cost (core : Core) : Budget := ({core}, 0, 0)

/-- A queue costs one queue, wherever it is. -/
def queueCost : Budget := (0, 1, 0)

/-- A pipe costs one pipe. -/
def pipeCost : Budget := (0, 0, 1)

variable {e : Epoch}

/-- A drawn shape has whole granules, and no more than eight tiles. -/
theorem drawn_shape {tileBytes granule : UInt64} {n : Nat} (htile : tileBytes ∈ [1088, 2080])
    (hgranule : granule ∈ [1, 2, 4]) (hn : n < 2) :
    0 < granule.toNat ∧ 0 < tileBytes.toNat ∧ 0 < (granule * UInt64.ofNat (1 + n)).toNat ∧
      granule.toNat ∣ (granule * UInt64.ofNat (1 + n)).toNat ∧
      (granule * UInt64.ofNat (1 + n)).toNat * tileBytes.toNat ≤ bufferBytes := by
  have hn : n = 0 ∨ n = 1 := by omega
  simp only [List.mem_cons, List.not_mem_nil, or_false] at htile hgranule
  rcases htile with rfl | rfl <;> rcases hgranule with rfl | rfl | rfl <;>
    rcases hn with rfl | rfl <;> decide

/-- An L1 buffer on the mesh is valid and costs itself. -/
theorem spends_l1Buffer (kind : BufferKind) {core : Core} {owner : Option Owner}
    (hcore : e.device.containsCore core = true)
    (howner : ∀ o ∈ owner, o.op.utf8ByteSize < UInt64.size)
    (hinput : ∀ op input, owner = some (.consumer op input) → input.toNat < 2) :
    (l1Buffer kind core owner).Spends (l1Cost core) e fun id e' =>
      ∃ x, e'.buffers.get? id = some x ∧ x.kind = kind ∧ x.core = core ∧ x.owner = owner := by
  rintro rest b rfl hb
  have hnext := hb.nextBuffer_lt (by simp [l1Cost])
  let b₁ : Builder := { b with nextBuffer := b.nextBuffer + 1 }
  obtain ⟨tileBytes, htile, s₁, h₁⟩ := run_choose (l := [(1088 : UInt64), 2080]) (by simp) b₁
  obtain ⟨granule, hgranule, s₂, h₂⟩ :=
    run_choose (l := [(1 : UInt64), 2, 4]) (by simp) { b₁ with stream := s₁ }
  obtain ⟨blocks, _, s₃, h₃⟩ :=
    run_choose (l := [(8 : UInt64), 16, 32]) (by simp) { b₁ with stream := s₂ }
  obtain ⟨n, hn, s₄, h₄⟩ :=
    run_draw (below64_lt (show 0 < 2 by decide)) { b₁ with stream := s₃ }
  let x : Buffer := ⟨⟨b.nextBuffer⟩, kind, core, none, owner, tileBytes, granule,
    granule * blocks, granule * UInt64.ofNat (1 + n)⟩
  obtain ⟨hgranule, htile, hpos, hwhole, hbytes⟩ := drawn_shape htile hgranule hn
  have hcheck : b.epoch.checkBuffer x = .ok () :=
    Epoch.checkBuffer_eq_ok.2
      ⟨Buffer.check_eq_ok_iff.2 ⟨hgranule, htile, fun _ => ⟨hpos, hwhole⟩⟩, Or.inr hcore⟩
  have hcost (c : Core) : x.bytesOn c ≤ bufferBytes * (l1Cost core).1.count c := by
    rw [Buffer.bytesOn, l1Cost, Multiset.count_singleton]
    split
    · rename_i hon
      have heq : core = c := by simpa using (Bool.and_eq_true_iff.1 hon).2
      rw [if_pos heq.symm, Nat.mul_one]
      exact hbytes
    · exact Nat.zero_le _
  refine ⟨x.id, b.withBuffer s₄ x, ?_, ?_, Builder.fills_withBuffer hb rfl s₄, x, ?_, rfl, rfl, rfl⟩
  · rw [l1Buffer, run_bind_ok (run_freshBuffer hnext), run_bind_ok h₁, run_bind_ok h₂,
      run_bind_ok h₃, run_bind_ok h₄, run_bind_ok (run_edit (Builder.addBuffer_eq_ok hb rfl s₄))]
    rfl
  · exact Builder.sound_withBuffer hb rfl hcheck ⟨by simp [x], howner⟩ hinput (by simp [l1Cost])
      hcost s₄
  · simp [Builder.withBuffer, Table.get?_insert]

/-- A queue on the mesh or in system memory is valid and costs itself. -/
theorem spends_queue {core : Core} (site : QueueSite) (prolog : Bool)
    (hcore : core.isSystemMemory = true ∨ e.device.containsCore core = true) :
    (queue core site prolog).Spends queueCost e fun id e' =>
      ∃ x, e'.buffers.get? id = some x ∧ x.kind = .queue := by
  rintro rest b rfl hb
  have hnext := hb.nextBuffer_lt (by simp [queueCost])
  let b₁ : Builder := { b with nextBuffer := b.nextBuffer + 1 }
  obtain ⟨tiles, htiles, s, h⟩ := run_choose (l := [(16 : UInt64), 32, 64]) (by simp) b₁
  let x : Buffer := ⟨⟨b.nextBuffer⟩, .queue, core, some ⟨s!"q{b.nextBuffer}", site, prolog⟩, none,
    1088, 1, tiles, tiles⟩
  have hcheck : b.epoch.checkBuffer x = .ok () :=
    Epoch.checkBuffer_eq_ok.2 ⟨rfl, hcore.imp_left fun hmemory => ⟨rfl, hmemory⟩⟩
  have hname : s!"q{b.nextBuffer}".utf8ByteSize < UInt64.size := by
    have hdigits := utf8ByteSize_repr_le b.nextBuffer.toNat_lt_size
    calc s!"q{b.nextBuffer}".utf8ByteSize
        = "q".utf8ByteSize + b.nextBuffer.toNat.repr.utf8ByteSize := String.utf8ByteSize_append
      _ ≤ "q".utf8ByteSize + 80 := Nat.add_le_add_left hdigits _
      _ < UInt64.size := by decide
  have hfits : x.Fits := by
    refine ⟨fun q hq => ?_, by simp [x]⟩
    cases hq
    exact hname
  refine ⟨x.id, b.withBuffer s x, ?_, ?_, Builder.fills_withBuffer hb rfl s, x, ?_, rfl⟩
  · rw [queue, run_bind_ok (run_freshBuffer hnext), run_bind_ok h,
      run_bind_ok (run_edit (Builder.addBuffer_eq_ok hb rfl s))]
    rfl
  · exact Builder.sound_withBuffer hb rfl hcheck hfits (by simp [OfTwoInputs, x])
      (by simp [queueCost]) (fun _ => Nat.zero_le _) s
  · simp [Builder.withBuffer, Table.get?_insert]

/-- A bank is on the mesh. -/
theorem spends_bank (hx : 0 < e.device.gridX.toNat) (hy : 0 < e.device.gridY.toNat)
    (chip : UInt32) :
    (bank chip).Spends 0 e fun core _ => e.device.containsCore core = true := by
  rintro rest b rfl hb
  rw [zero_add] at hb
  have hword {n : Nat} {grid : UInt32} (hn : n < grid.toNat) : UInt32.ofNat n < grid := by
    rwa [UInt32.lt_iff_toNat_lt, UInt32.toNat_ofNat_of_lt' (hn.trans grid.toNat_lt_size)]
  obtain ⟨x, hx', s₁, h₁⟩ := run_draw (below32_lt hx) b
  obtain ⟨y, hy', s₂, h₂⟩ := run_draw (below32_lt hy) { b with stream := s₁ }
  refine ⟨⟨chip, UInt32.ofNat x, UInt32.ofNat y⟩, { b with stream := s₂ }, ?_, { hb with }, .refl _,
    ?_⟩
  · rw [bank, run_bind_ok (run_get b), run_bind_ok h₁, run_bind_ok h₂]
    rfl
  · simp only [Device.containsCore, Bool.and_eq_true, decide_eq_true_eq]
    exact ⟨hword hx', hword hy'⟩

/-- A queue in DRAM costs one queue. -/
theorem spends_dramQueue (hx : 0 < e.device.gridX.toNat) (hy : 0 < e.device.gridY.toNat)
    (chip : UInt32) (prolog : Bool) :
    (dramQueue chip prolog).Spends queueCost e fun id e' =>
      ∃ x, e'.buffers.get? id = some x ∧ x.kind = .queue := by
  rw [← zero_add queueCost]
  refine (spends_bank hx hy chip).bind fun core e' hfills hcore => spends_queue .dram prolog ?_
  exact Or.inr (hfills.device ▸ hcore)

/-- A valid pipe costs itself. -/
theorem spends_pipe {inputs : List BufferId} {outputs : List (List BufferId)} {cores : List Core}
    (h : ∀ id, e.Carries ⟨id, inputs, outputs, cores, none⟩ ∧
      Pipe.Fits ⟨id, inputs, outputs, cores, none⟩) :
    (pipe inputs outputs cores).Spends pipeCost e fun _ _ => True := by
  rintro rest b rfl hb
  have hnext := hb.nextPipe_lt (by simp [pipeCost])
  obtain ⟨hp, hfits⟩ := h ⟨b.nextPipe⟩
  refine ⟨(), b.withPipe ⟨⟨b.nextPipe⟩, inputs, outputs, cores, none⟩, ?_, ?_, ?_, trivial⟩
  · rw [pipe, run_bind_ok (run_freshPipe hnext), run_edit (Builder.addPipe_eq_ok hb rfl)]
    rfl
  · exact Builder.sound_withPipe hb rfl hp hfits (by simp [pipeCost])
  · exact ⟨⟨rfl, id, id⟩, rfl, rfl⟩

end Build

end Synthesis

end TorusRouting
