import Mathlib
import TorusRouting.Proofs.Mesh.Overlap
import TorusRouting.Proofs.Randomness.Ranges
import TorusRouting.Synthesis.Chain

/-!
# Where the ops of a chain are placed

Whatever is drawn, every rectangle stays in its own band of columns and in the rows for ops. So
the ops are on the mesh, each lies to the left of the next ones, and no two have one name.

No two ops in a row follow their predecessor. So the predecessor of an op that does is free to be
narrowed to the last column of its band, and the op starts at the next column, on the same rows. It
takes its first input along rows.
-/

namespace TorusRouting.Synthesis

open Randomness

/-! ## Texts that end with a number -/

private theorem utf8ByteSize_le (s : String) : s.utf8ByteSize ≤ 4 * s.length := by
  have hlist (cs : List Char) : String.utf8Len cs ≤ 4 * cs.length := by
    induction cs with
    | nil => exact Nat.le_refl _
    | cons c cs ih =>
      have hc := c.utf8Size_le_four
      rw [String.utf8Len_cons, List.length_cons]
      omega
  have h := hlist s.toList
  rwa [← String.utf8ByteSize_ofList, String.ofList_toList, String.length_toList] at h

/-- The decimal digits of a word take up no more than eighty bytes. -/
theorem utf8ByteSize_repr_le {n : Nat} (h : n < UInt64.size) : n.repr.utf8ByteSize ≤ 80 := by
  have hlength := Nat.repr_length n 20 (by decide) (Nat.lt_trans h (by decide))
  have hbytes := utf8ByteSize_le n.repr
  omega

/-! ## Bands -/

variable {p : Params} {s : Space} {start : UInt32} {r : Rect} {i : Nat}

/-- Columns for each op. -/
def Params.band (p : Params) : Nat := p.gridX.toNat / p.opCount

/-- There is something to place, and a row to place it on. -/
theorem isEmpty_eq_false :
    p.isEmpty = false ↔ 0 < p.opCount ∧ p.firstRow.toNat < p.gridY.toNat := by
  rw [Params.isEmpty, Bool.or_eq_false_iff, decide_eq_false_iff_not, decide_eq_false_iff_not,
    UInt32.not_le, UInt32.lt_iff_toNat_lt, Nat.pos_iff_ne_zero]

/-- There are no more ops than columns. -/
theorem opCount_le : p.opCount ≤ p.gridX.toNat := Nat.min_le_right ..

/-- All bands are on the mesh. -/
theorem opCount_mul_band_le : p.opCount * p.band ≤ p.gridX.toNat := Nat.mul_div_le _ _

/-- The bands are next to each other, and each of them is on the mesh. -/
theorem band_le (hi : i < p.opCount) : i * p.band + p.band ≤ p.gridX.toNat :=
  calc i * p.band + p.band = (i + 1) * p.band := (Nat.succ_mul ..).symm
    _ ≤ p.opCount * p.band := Nat.mul_le_mul_right _ hi
    _ ≤ p.gridX.toNat := opCount_mul_band_le

/-- The space has a band for every op, and all rows from the first one on. -/
structure Space.Of (s : Space) (p : Params) : Prop where
  firstRow : s.firstRow = p.firstRow
  rows : p.firstRow.toNat + s.rows.toNat = p.gridY.toNat
  band : s.band.toNat = p.band
  high : 0 < s.rows.toNat
  wide : 0 < p.band

/-- Unless the chain is empty, it has a space. -/
theorem exists_space (h : p.isEmpty = false) : ∃ s, p.space p.opCount = .ok s ∧ s.Of p := by
  obtain ⟨hops, hrow⟩ := isEmpty_eq_false.1 h
  obtain ⟨rows, hrows, hnat⟩ := exists_sub32 hrow.le
  have hcount : (UInt32.ofNat p.opCount).toNat = p.opCount :=
    UInt32.toNat_ofNat_of_lt' (opCount_le.trans_lt p.gridX.toNat_lt_size)
  have hne : UInt32.ofNat p.opCount ≠ 0 := by
    intro hzero
    rw [hzero] at hcount
    exact hops.ne hcount
  refine ⟨⟨p.firstRow, rows, p.gridX / UInt32.ofNat p.opCount⟩, ?_, rfl, ?_, ?_, ?_, ?_⟩
  · rw [Params.space, div32, if_neg hne, hrows]
    rfl
  · simp only [hnat]
    omega
  · rw [UInt32.toNat_div, hcount]
    rfl
  · simp only [hnat]
    omega
  · exact Nat.div_pos opCount_le hops

/-- Every op has the first column of its band. -/
theorem Space.Of.exists_start (hs : s.Of p) (hi : i < p.opCount) :
    ∃ start, s.start i = .ok start ∧ start.toNat = i * p.band := by
  have hmesh := band_le hi
  have hsize := p.gridX.toNat_lt_size
  have hword : (UInt32.ofNat i).toNat = i :=
    UInt32.toNat_ofNat_of_lt' ((hi.trans_le opCount_le).trans hsize)
  rw [Space.start, mul32, hword, hs.band]
  exact exists_word32 (by omega)

/-! ## Rectangles -/

/-- The rectangle lies in band `i` and in the rows for ops. -/
structure Rect.Inside (r : Rect) (p : Params) (i : Nat) : Prop where
  wide : 0 < r.width.toNat
  left : i * p.band ≤ r.x.toNat
  right : r.x.toNat + r.width.toNat ≤ i * p.band + p.band
  high : 0 < r.height.toNat
  low : r.height.toNat ≤ 4
  top : p.firstRow.toNat ≤ r.y.toNat
  bottom : r.y.toNat + r.height.toNat ≤ p.gridY.toNat

/-- The column that an op of band `i` may follow. -/
def Rect.Ends (r : Rect) (p : Params) (i : Nat) : Prop := r.width = 1 ∧ r.x.toNat + 1 = i * p.band

/-- A single column right before the other rectangle, on the same rows. In a band of two columns or
more the other one has at least two. -/
structure Rect.Before (r s : Rect) (p : Params) : Prop where
  column : r.width = 1
  next : r.x.toNat + 1 = s.x.toNat
  row : s.y = r.y
  height : s.height = r.height
  wide : min p.band 2 ≤ s.width.toNat

section

variable (hs : s.Of p) (hi : i < p.opCount) (hstart : start.toNat = i * p.band)

include hs hi hstart

/-- A rectangle that follows none lies anywhere in its band. -/
theorem drawRect_inside : (s.drawRect start).Always (·.Inside p i) := by
  have hmesh := band_le hi
  have hx := p.gridX.toNat_lt_size
  have hy := p.gridY.toNat_lt_size
  have hband := hs.band
  have hrows := hs.rows
  have hone : (1 : UInt32).toNat = 1 := rfl
  have hfour : (4 : UInt32).toNat = 4 := rfl
  refine (between32_range ?_).bind fun width hwidth => ?_
  · rw [UInt32.le_iff_toNat_le, hband]
    exact hs.wide
  refine (between32_range ?_).bind fun height hheight => ?_
  · rw [UInt32.le_iff_toNat_le, UInt32.toNat_min]
    exact Nat.le_min.2 ⟨hs.high, by decide⟩
  rw [UInt32.le_iff_toNat_le, UInt32.le_iff_toNat_le] at hwidth hheight
  rw [UInt32.toNat_min] at hheight
  obtain ⟨columns, hcolumns, hright⟩ := exists_sub32 hwidth.2
  refine .lift_bind hcolumns ((between32_range UInt32.zero_le).bind fun dx hdx => ?_)
  rw [UInt32.le_iff_toNat_le, UInt32.le_iff_toNat_le] at hdx
  obtain ⟨x, hadd, hleft⟩ := exists_word32 (n := start.toNat + dx.toNat) (by omega)
  refine .lift_bind hadd ?_
  obtain ⟨rows, hsub, hbottom⟩ := exists_sub32 (a := s.rows) (b := height) (by omega)
  refine .lift_bind hsub ((between32_range UInt32.zero_le).bind fun dy hdy => ?_)
  rw [UInt32.le_iff_toNat_le, UInt32.le_iff_toNat_le] at hdy
  obtain ⟨y, hadd', htop⟩ := exists_word32 (n := s.firstRow.toNat + dy.toNat) (by
    rw [hs.firstRow]
    omega)
  refine .lift_bind hadd' (.pure ?_)
  rw [hs.firstRow] at htop
  constructor <;> simp only <;> omega

omit hi in
/-- A rectangle that follows another one starts its band, on the same rows. -/
theorem drawRectAfter_before {previous : Rect} {j : Nat} (hinside : previous.Inside p j)
    (hends : previous.Ends p i) :
    (s.drawRectAfter start (some previous)).Always fun r => r.Inside p i ∧ previous.Before r p := by
  have hband := hs.band
  have hwide := hs.wide
  have htwo : (2 : UInt32).toNat = 2 := rfl
  refine (between32_range ?_).bind fun width hwidth => .pure ⟨?_, ?_⟩
  · rw [UInt32.le_iff_toNat_le, UInt32.toNat_min]
    exact Nat.min_le_left ..
  all_goals rw [UInt32.le_iff_toNat_le, UInt32.le_iff_toNat_le, UInt32.toNat_min] at hwidth
  · exact { hinside with
      wide := by simp only; omega
      left := hstart.ge
      right := by simp only; omega }
  · exact ⟨hends.1, hends.2.trans hstart.symm, rfl, rfl, by simp only; omega⟩

/-- A narrowed rectangle is the last column of its band. -/
theorem exists_narrow (hr : r.Inside p i) :
    ∃ r', s.narrow start r = .ok r' ∧ r'.Inside p i ∧ r'.Ends p (i + 1) := by
  have hmesh := band_le hi
  have hx := p.gridX.toNat_lt_size
  have hband := hs.band
  have hwide := hs.wide
  have hone : (1 : UInt32).toNat = 1 := rfl
  obtain ⟨after, hadd, hafter⟩ := exists_word32 (n := start.toNat + s.band.toNat) (by omega)
  obtain ⟨x, hsub, hlast⟩ := exists_sub32 (a := after) (b := 1) (by omega)
  have hnext : (i + 1) * p.band = i * p.band + p.band := Nat.succ_mul ..
  refine ⟨{ r with x, width := 1 }, ?_, { hr with
      wide := Nat.one_pos
      left := by simp only; omega
      right := by simp only; omega }, rfl, by simp only; omega⟩
  exact bind_eq_ok.2 ⟨after, hadd, bind_eq_ok.2 ⟨x, hsub, rfl⟩⟩

end

/-! ## Flags -/

/-- No two flags in a row are set. -/
def Apart (flags : List Bool) : Prop := flags.IsChain fun a b => ¬ (a = true ∧ b = true)

/-- The flag of an op is drawn unless its predecessor has it set. -/
theorem drawAdjacent_apart (n : Nat) (previous : Bool) :
    (drawAdjacent n previous).Always fun flags =>
      flags.length = n ∧ Apart (previous :: flags) := by
  induction n generalizing previous with
  | zero => exact .pure ⟨rfl, List.isChain_singleton _⟩
  | succ n ih =>
    have hrest (here : Bool) (h : ¬ (previous = true ∧ here = true)) :
        Draw.Always (do return here :: (← drawAdjacent n here))
          fun flags => flags.length = n + 1 ∧ Apart (previous :: flags) :=
      (ih here).bind fun flags hflags => .pure
        ⟨congrArg (· + 1) hflags.1, List.isChain_cons_cons.2 ⟨h, hflags.2⟩⟩
    refine .ite (fun _ => ?_) fun hprevious => ?_
    · have hnone : Draw.Always (Pure.pure false) (· = false) := .pure rfl
      exact hnone.bind fun here hhere => hrest here (by simp [hhere])
    · exact (coin_always _).bind fun here _ => hrest here (by simp [hprevious])

/-- Rectangles from band `i` on. Wherever a flag is set, the rectangle before is a column next to
the one of the flag. -/
structure Placed (p : Params) (i : Nat) (previous : Option Rect) (flags : List Bool)
    (rs : List Rect) : Prop where
  length : rs.length = flags.length
  inside : ∀ (k : Nat) (r : Rect), rs[k]? = some r → r.Inside p (i + k)
  before : ∀ (k : Nat) (r : Rect), flags[k]? = some true → rs[k]? = some r →
    ∃ q, (previous :: rs.map some)[k]? = some (some q) ∧ q.Before r p

section

variable {previous : Option Rect} {flags : List Bool} {rs : List Rect}

private theorem Placed.cons {follows : Bool} (h : Placed p (i + 1) (some r) flags rs)
    (hinside : r.Inside p i) (hbefore : follows = true → ∃ q, previous = some q ∧ q.Before r p) :
    Placed p i previous (follows :: flags) (r :: rs) := by
  refine ⟨congrArg (· + 1) h.length, ?_, ?_⟩
  · rintro (_ | k) r' hr'
    · cases hr'
      exact hinside
    · rw [show i + (k + 1) = i + 1 + k by omega]
      exact h.inside k r' hr'
  · rintro (_ | k) r' hf hr'
    · cases hr'
      obtain ⟨q, hq, hbefore⟩ := hbefore (Option.some.inj hf)
      exact ⟨q, congrArg some hq, hbefore⟩
    · exact h.before k r' hf hr'

/-- A rectangle that follows another one is not followed, so it keeps its place. -/
theorem drawRects_placed (hs : s.Of p) (hlength : i + flags.length ≤ p.opCount)
    (hflags : Apart flags)
    (hprevious : flags.head? = some true → ∃ q j, previous = some q ∧ q.Inside p j ∧ q.Ends p i) :
    (s.drawRects i previous flags).Always (Placed p i previous flags) := by
  induction flags generalizing i previous with
  | nil => exact .pure ⟨rfl, by simp, by simp⟩
  | cons follows flags ih =>
    rw [List.length_cons] at hlength
    have hi : i < p.opCount := by omega
    have hrest (r : Rect) (hr : r.Inside p i)
        (hends : flags.head? = some true → r.Ends p (i + 1))
        (hbefore : follows = true → ∃ q, previous = some q ∧ q.Before r p) :
        Draw.Always (do return r :: (← s.drawRects (i + 1) (some r) flags))
          (Placed p i previous (follows :: flags)) := by
      refine (ih (by omega) hflags.of_cons fun hhead => ⟨r, i, rfl, hr, hends hhead⟩).bind ?_
      exact fun rs hrs => .pure (hrs.cons hr hbefore)
    obtain ⟨start, hstart, hnat⟩ := hs.exists_start hi
    rw [Space.drawRects]
    refine .lift_bind hstart (.ite (fun hf => ?_) fun hf => ?_)
    · obtain ⟨q, j, rfl, hq, hends⟩ := hprevious (congrArg some hf)
      refine (drawRectAfter_before hs hnat hq hends).bind fun r hr => ?_
      have hfree : flags.head? ≠ some true := by
        intro hhead
        cases flags with
        | nil => cases hhead
        | cons g flags => exact (List.isChain_cons_cons.1 hflags).1 ⟨hf, Option.some.inj hhead⟩
      refine .ite (fun hhead => absurd hhead hfree) fun _ => ?_
      exact hrest r hr.1 (fun hhead => absurd hhead hfree) fun _ => ⟨q, rfl, hr.2⟩
    · refine (drawRect_inside hs hi hnat).bind fun r hr => .ite (fun _ => ?_) fun hhead => ?_
      · obtain ⟨r', hnarrow, hr', hends⟩ := exists_narrow hs hi hnat hr
        exact .lift_bind hnarrow (hrest r' hr' (fun _ => hends) fun hf' => absurd hf' hf)
      · exact hrest r hr (fun h => absurd h hhead) fun hf' => absurd hf' hf

end

/-! ## The plan -/

/-- An entry of a plan with the one that it follows. -/
structure Planned.Follows (o previous : Planned) (p : Params) : Prop where
  before : previous.rect.Before o.rect p
  broadcast : o.broadcast = ⟨true, false, false⟩

/-- Every op has its band, and every op that follows its predecessor has it right before it. -/
structure Arranged (p : Params) (plan : List Planned) : Prop where
  length : plan.length = p.opCount
  inside : ∀ (i : Nat) (o : Planned), plan[i]? = some o → o.rect.Inside p i
  follows : ∀ (i : Nat) (o : Planned), plan[i]? = some o → o.follows = true →
    ∃ j previous, i = j + 1 ∧ plan[j]? = some previous ∧ o.Follows previous p

private theorem drawBroadcast_row (follows : Bool) :
    (drawBroadcast follows).Always fun b => follows = true → b = ⟨true, false, false⟩ :=
  (below32_lt (by decide)).bind fun _ _ => .pure fun hf => if_pos (by simp [hf])

/-- The first op follows none, so whatever is drawn can be arranged. -/
theorem drawPlan_arranged (h : p.isEmpty = false) : (drawPlan p).Always (Arranged p) := by
  have hops := (isEmpty_eq_false.1 h).1
  obtain ⟨s, hspace, hs⟩ := exists_space h
  refine (drawAdjacent_apart _ _).bind fun flags hflags => ?_
  have hcount : (false :: flags).length = p.opCount := by
    rw [List.length_cons, hflags.1]
    omega
  refine .lift_bind (hcount ▸ hspace) ?_
  refine (drawRects_placed hs (by omega) hflags.2 (by simp)).bind fun rects hrects => ?_
  refine (Draw.Always.mapM drawBroadcast_row _).bind fun broadcasts hbroadcasts => .pure ?_
  have hlength := hbroadcasts.length_eq
  have hlength' := hrects.length
  rw [List.tail_cons] at hlength
  refine ⟨?_, ?_, ?_⟩
  · simp only [List.length_map, List.length_zip, List.length_cons] at *
    omega
  · intro i o ho
    simp only [List.getElem?_map, Option.map_eq_some_iff, List.getElem?_zip_eq_some] at ho
    obtain ⟨⟨r, f, b⟩, ⟨hr, _⟩, rfl⟩ := ho
    exact Nat.zero_add i ▸ hrects.inside i r hr
  · intro i o ho hf
    simp only [List.getElem?_map, Option.map_eq_some_iff, List.getElem?_zip_eq_some] at ho ⊢
    obtain ⟨⟨r, f, b⟩, ⟨hr, hflag, hb⟩, rfl⟩ := ho
    obtain rfl : f = true := hf
    obtain ⟨q, hq, hbefore⟩ := hrects.before i r hflag hr
    cases i with
    | zero => cases hflag
    | succ j =>
      have hj := Nat.lt_of_succ_lt (List.getElem?_eq_some_iff.1 hflag).1
      have hj' : j < ({} :: broadcasts : List Broadcast).length := by
        rwa [List.length_cons, ← hlength]
      rw [List.getElem?_cons_succ, List.getElem?_map, Option.map_eq_some_iff] at hq
      obtain ⟨q', hq', hsome⟩ := hq
      cases hsome
      refine ⟨j, ⟨q, (false :: flags)[j], ({} :: broadcasts)[j]⟩, rfl, ⟨(q, _, _),
        ⟨hq', List.getElem?_eq_getElem hj, List.getElem?_eq_getElem hj'⟩, rfl⟩, hbefore, ?_⟩
      have hmem : (true, b) ∈ flags.zip broadcasts :=
        List.mem_of_getElem? (List.getElem?_zip_eq_some.2 ⟨hflag, hb⟩)
      exact (List.forall₂_iff_zip.1 hbroadcasts).2 hmem rfl

/-! ## The ops of a plan -/

/-- The ops of a plan are made from its entries, one by one. -/
theorem drawOps_toOp (plan : List Planned) : (drawOps plan).Always fun ops =>
    ops.map (·.1) = plan ∧
      ∀ (i : Nat) (x : Planned × Op), ops[i]? = some x → ∃ t u, x.2 = x.1.toOp i t u := by
  refine (Draw.Always.mapM (fun _ => coin_always .fifth) plan).bind fun transposed ht => ?_
  refine (coin_always _).bind fun untilizes _ => .pure ⟨?_, ?_⟩
  · calc _ = ((plan.zip transposed).zipIdx.map Prod.fst).map Prod.fst := by
          rw [List.map_map, List.map_map]
          rfl
      _ = plan := by rw [List.zipIdx_map_fst, List.map_fst_zip ht.length_eq.le]
  · intro i x hx
    simp only [List.getElem?_map, Option.map_eq_some_iff, List.getElem?_zipIdx] at hx
    obtain ⟨⟨⟨o, t⟩, j⟩, ⟨y, _, heq⟩, rfl⟩ := hx
    obtain ⟨rfl, rfl⟩ := Prod.mk.inj heq
    exact ⟨t, _, by rw [Nat.zero_add]⟩

/-- The op stands where its entry of the plan says, on the mesh. -/
structure Planned.Places (o : Planned) (p : Params) (op : Op) : Prop where
  chip : op.chip = 0
  x : op.x = o.rect.x
  y : op.y = o.rect.y
  width : op.width = o.rect.width
  height : op.height = o.rect.height
  onMesh : op.OnMesh p.device
  /-- No op takes more than four rows. -/
  low : op.height.toNat ≤ 4
  narrow : op.width.toNat ≤ p.band
  inputs : op.inputs = [o.broadcast, {}]
  name : op.name.utf8ByteSize < UInt64.size

/-- The ops of a chain from left to right. -/
structure Layout (p : Params) (ops : List (Planned × Op)) : Prop where
  length : ops.length = p.opCount
  places : ∀ x ∈ ops, x.1.Places p x.2
  named : ∀ (i : Nat) (x : Planned × Op), ops[i]? = some x → x.2.name = s!"op{i}"
  columns : ops.Pairwise fun a b => a.2.x.toNat + a.2.width.toNat ≤ b.2.x.toNat

namespace Layout

variable {ops : List (Planned × Op)}

/-- Ops in different places have different names. -/
theorem name_ne (h : Layout p ops) {i j : Nat} {x y : Planned × Op} (hx : ops[i]? = some x)
    (hy : ops[j]? = some y) (hij : i ≠ j) : x.2.name ≠ y.2.name := by
  rw [h.named i x hx, h.named j y hy]
  exact fun hname => hij (Nat.repr_inj.1 ((String.append_right_inj _).1 hname))

/-- No two ops have one name. -/
theorem names (h : Layout p ops) : ops.Pairwise fun a b => a.2.name ≠ b.2.name :=
  List.pairwise_iff_getElem.2 fun _ _ hi hj hij =>
    h.name_ne (List.getElem?_eq_getElem hi) (List.getElem?_eq_getElem hj) hij.ne

end Layout

/-- A rectangle in its band is on the mesh. -/
theorem Rect.Inside.places {o : Planned} (h : o.rect.Inside p i) (hi : i < p.opCount)
    (t u : Bool) : o.Places p (o.toOp i t u) := by
  have hmesh := band_le hi
  have hwide := h.wide
  have hleft := h.left
  have hright := h.right
  have hhigh := h.high
  have hbottom := h.bottom
  refine ⟨rfl, rfl, rfl, rfl, rfl, ?_, h.low, ?_, rfl, ?_⟩
  · rintro (_ | _)
    · refine ⟨hwide, ?_⟩
      simp only [Planned.toOp, Op.size, Op.start, Params.device, Device.size]
      omega
    · exact ⟨hhigh, hbottom⟩
  · simp only [Planned.toOp]
    omega
  · have hdigits := utf8ByteSize_repr_le (n := i) (by
      have hword : UInt32.size < UInt64.size := by decide
      have hsize := p.gridX.toNat_lt_size
      have hcount := opCount_le (p := p)
      omega)
    calc (o.toOp i t u).name.utf8ByteSize = "op".utf8ByteSize + i.repr.utf8ByteSize :=
          String.utf8ByteSize_append
      _ ≤ "op".utf8ByteSize + 80 := Nat.add_le_add_left hdigits _
      _ < UInt64.size := by decide

/-- The ops of an arranged plan are laid out from left to right. -/
theorem Arranged.layout {ops : List (Planned × Op)} (h : Arranged p (ops.map (·.1)))
    (hmade : ∀ (i : Nat) (x : Planned × Op), ops[i]? = some x → ∃ t u, x.2 = x.1.toOp i t u) :
    Layout p ops := by
  have hlength : ops.length = p.opCount := by rw [← h.length, List.length_map]
  have hinside {i : Nat} {x : Planned × Op} (hx : ops[i]? = some x) : x.1.rect.Inside p i :=
    h.inside i x.1 (by rw [List.getElem?_map, hx]; rfl)
  have hplaces {i : Nat} {x : Planned × Op} (hx : ops[i]? = some x) : x.1.Places p x.2 := by
    obtain ⟨t, u, heq⟩ := hmade i x hx
    exact heq ▸ (hinside hx).places (hlength ▸ (List.getElem?_eq_some_iff.1 hx).1) t u
  refine ⟨hlength, ?_, ?_, ?_⟩
  · intro x hx
    obtain ⟨i, hi⟩ := List.getElem?_of_mem hx
    exact hplaces hi
  · intro i x hx
    obtain ⟨_, _, heq⟩ := hmade i x hx
    rw [heq]
    rfl
  · refine List.pairwise_iff_getElem.2 fun i j hi hj hij => ?_
    have hi := List.getElem?_eq_getElem hi
    have hj := List.getElem?_eq_getElem hj
    rw [(hplaces hi).x, (hplaces hi).width, (hplaces hj).x]
    calc _ ≤ i * p.band + p.band := (hinside hi).right
      _ = (i + 1) * p.band := (Nat.succ_mul ..).symm
      _ ≤ j * p.band := Nat.mul_le_mul_right _ hij
      _ ≤ _ := (hinside hj).left

/-- The plan that is drawn from a keystream. -/
def Params.plan (p : Params) (stream : Keystream) : Outcome (List Planned) :=
  if p.isEmpty then .ok [] else (drawPlan p).run' stream

/-- From every keystream a plan is drawn, and its ops are laid out from left to right. -/
theorem exists_drawn (h : p.isEmpty = false) (stream : Keystream) :
    ∃ ops stream', (do drawOps (← drawPlan p) : Draw _).run stream = .ok (ops, stream') ∧
      p.plan stream = .ok (ops.map (·.1)) ∧ Arranged p (ops.map (·.1)) ∧ Layout p ops := by
  obtain ⟨plan, stream₁, hplan, harranged⟩ := drawPlan_arranged h stream
  obtain ⟨ops, stream₂, hops, rfl, hmade⟩ := drawOps_toOp plan stream₁
  refine ⟨ops, stream₂, ?_, ?_, harranged, harranged.layout hmade⟩
  · rw [StateT.run_bind, hplan]
    exact hops
  · rw [Params.plan, if_neg (by simp [h]), StateT.run'_eq, hplan]
    rfl

end TorusRouting.Synthesis
