import Mathlib.Algebra.Group.Nat.Defs
import Mathlib.Data.List.Infix
import TorusRouting.File.Codec

/-!
# Laws of codecs

A reader takes back exactly the bytes that were written, whatever follows them. A count above the
largest word is refused and never misread. No reader takes the end of the bytes for the end of a
value, so a proper part of what was written is refused too. All this passes from the parts of a
compound value to the whole.
-/

namespace TorusRouting.File

variable {α β : Type}

/-- The reader ran out of bytes. -/
def FormatError.AtEnd (x : FormatError) : Prop := x = .ended ∨ x = .endedInText

/-- The reader takes `bytes` for `a` when `a` fits the format, and refuses them when it does not. A
proper part of them is refused in any case, because it ends too early when `a` fits. -/
structure Takes (read : Reader α) (bytes : List UInt8) (a : α) (fits : Prop) : Prop where
  whole : fits → ∀ rest, read (bytes ++ rest) = .ok (a, rest)
  refused : ¬ fits → ∀ rest, ∃ x, read (bytes ++ rest) = .error x
  cut : ∀ part, part <+: bytes → part ≠ bytes → ∃ x, read part = .error x ∧ (fits → x.AtEnd)

/-- A proper part of two pieces ends inside the first, or inside the second after all of the
first. -/
theorem cut_append {l m part : List UInt8} (h : part <+: l ++ m) (hne : part ≠ l ++ m) :
    (part <+: l ∧ part ≠ l) ∨ ∃ tail, part = l ++ tail ∧ tail <+: m ∧ tail ≠ m := by
  rcases List.prefix_or_prefix_of_prefix h (List.prefix_append l m) with hl | ⟨tail, rfl⟩
  · by_cases heq : part = l
    · subst heq
      right
      refine ⟨[], by simp, List.nil_prefix, ?_⟩
      rintro rfl
      simp at hne
    · exact Or.inl ⟨hl, heq⟩
  · right
    refine ⟨tail, rfl, (List.prefix_append_right_inj l).1 h, ?_⟩
    rintro rfl
    exact hne rfl

namespace Takes

variable {read : Reader α} {bytes : List UInt8} {a : α} {p : Prop}

/-- A reader is told the same condition in other words. -/
theorem congr {q : Prop} (h : Takes read bytes a p) (hpq : p ↔ q) : Takes read bytes a q := by
  rwa [← propext hpq]

/-- A reader that takes nothing. -/
theorem pure (a : α) : Takes (fun bytes => .ok (a, bytes)) [] a True where
  whole := by simp
  refused := by simp
  cut := by
    intro part hpart hne
    exact absurd (List.prefix_nil.1 hpart) hne

/-- Two readers in a row, where `k` goes on with `next` after `a` was read. -/
theorem andThen {next : Reader β} {k : α × List UInt8 → Except FormatError (β × List UInt8)}
    {bytes' : List UInt8} {b : β} {q : Prop} (h : Takes read bytes a p)
    (h' : Takes next bytes' b q) (hk : ∀ rest, k (a, rest) = next rest) :
    Takes (fun input => read input >>= k) (bytes ++ bytes') b (p ∧ q) := by
  have hok {input rest : List UInt8} (hread : read input = .ok (a, rest)) :
      (read input >>= k) = next rest := by
    rw [hread]
    exact hk rest
  have herror {input : List UInt8} {x : FormatError} (hread : read input = .error x) :
      (read input >>= k) = .error x := by
    rw [hread]
    rfl
  refine ⟨?_, ?_, ?_⟩
  · rintro ⟨hp, hq⟩ rest
    rw [List.append_assoc, hok (h.whole hp _), h'.whole hq]
  · intro hpq rest
    rw [List.append_assoc]
    by_cases hp : p
    · rw [hok (h.whole hp _)]
      exact h'.refused (fun hq => hpq ⟨hp, hq⟩) rest
    · obtain ⟨x, hx⟩ := h.refused hp (bytes' ++ rest)
      exact ⟨x, herror hx⟩
  · intro part hpart hne
    rcases cut_append hpart hne with ⟨hl, hlne⟩ | ⟨tail, rfl, htail, htne⟩
    · obtain ⟨x, hx, hend⟩ := h.cut part hl hlne
      exact ⟨x, herror hx, fun hpq => hend hpq.1⟩
    · by_cases hp : p
      · obtain ⟨x, hx, hend⟩ := h'.cut tail htail htne
        rw [hok (h.whole hp _)]
        exact ⟨x, hx, fun hpq => hend hpq.2⟩
      · obtain ⟨x, hx⟩ := h.refused hp tail
        exact ⟨x, herror hx, fun hpq => absurd hpq.1 hp⟩

/-- A value turned into another after it was read. -/
theorem map (h : Takes read bytes a p) (f : α → β) :
    Takes (fun bytes => do
      let (a, rest) ← read bytes
      return (f a, rest)) bytes (f a) p := by
  have hmap := h.andThen (k := fun x => Pure.pure (f x.1, x.2)) (.pure (f a)) fun _ => rfl
  simpa only [List.append_nil, and_true] using hmap

/-- A reader that refuses everything. -/
theorem never (bytes : List UInt8) (a : α) (x : FormatError) :
    Takes (fun _ => .error x) bytes a False where
  whole := False.elim
  refused := fun _ _ => ⟨x, rfl⟩
  cut := fun _ _ _ => ⟨x, rfl, False.elim⟩

/-- One byte in front, without which the reader is at the end. -/
theorem cons {first : UInt8} {outer : Reader α} (h : Takes read bytes a p)
    (hnil : outer [] = .error .ended) (hcons : ∀ rest, outer (first :: rest) = read rest) :
    Takes outer (first :: bytes) a p where
  whole := by
    intro hp rest
    rw [List.cons_append, hcons, h.whole hp]
  refused := by
    intro hp rest
    rw [List.cons_append, hcons]
    exact h.refused hp rest
  cut := by
    intro part hpart hne
    rcases List.prefix_cons_iff.1 hpart with rfl | ⟨tail, rfl, htail⟩
    · exact ⟨.ended, hnil, fun _ => Or.inl rfl⟩
    · rw [hcons]
      apply h.cut tail htail
      rintro rfl
      exact hne rfl

end Takes

/-! ## Numbers -/

private theorem takes_low {k n : Nat} (h : n < 256 ^ k) :
    Takes (readLow k) (writeLow k n) n True := by
  induction k generalizing n with
  | zero =>
    have hn : n = 0 := by simpa using h
    subst hn
    exact .pure 0
  | succ k ih =>
    have hhigh : n / 256 < 256 ^ k := by
      rw [Nat.div_lt_iff_lt_mul (by decide), ← Nat.pow_succ]
      exact h
    have hlow : (UInt8.ofNat n).toNat = n % 256 := by simp
    have hmap := (ih hhigh).map fun high => (UInt8.ofNat n).toNat + 256 * high
    rw [hlow, Nat.mod_add_div] at hmap
    exact hmap.cons rfl fun _ => by rw [readLow, hlow]

/-- The byte of the last digit. -/
private theorem toNat_last {n : Nat} (h : n < 128) : (UInt8.ofNat n).toNat = n := by
  rw [UInt8.toNat_ofNat']
  omega

/-- The byte of a digit that others follow has its high bit set. -/
private theorem toNat_digit (n : Nat) : (UInt8.ofNat (n % 128 + 128)).toNat = n % 128 + 128 := by
  rw [UInt8.toNat_ofNat']
  omega

/-- A reader with no digit left after this one accepts `0` and `1`. -/
private theorem takes_lastDigit (n : Nat) :
    Takes (readVarintUpTo 0) (writeVarint n) n (n < 2) := by
  rw [writeVarint]
  split
  · rename_i hn
    by_cases hsmall : n < 2
    · have hbyte : UInt8.ofNat n ≤ 1 := by
        rw [UInt8.le_iff_toNat_le, toNat_last hn]
        exact Nat.le_of_lt_succ hsmall
      refine ((Takes.pure n).congr (iff_of_true trivial hsmall)).cons rfl fun rest => ?_
      rw [readVarintUpTo, if_pos hbyte, toNat_last hn]
    · have hbyte : ¬ UInt8.ofNat n ≤ 1 := by
        rw [UInt8.le_iff_toNat_le, toNat_last hn]
        exact fun hle => hsmall (Nat.lt_succ_of_le hle)
      refine ((Takes.never [] n .longVarint).congr (iff_of_false id hsmall)).cons rfl fun rest => ?_
      rw [readVarintUpTo, if_neg hbyte]
  · have hbyte : ¬ UInt8.ofNat (n % 128 + 128) ≤ 1 := by
      rw [UInt8.le_iff_toNat_le, toNat_digit]
      simp
    have hlarge : ¬ n < 2 := by omega
    refine ((Takes.never _ n .longVarint).congr (iff_of_false id hlarge)).cons rfl fun rest => ?_
    rw [readVarintUpTo, if_neg hbyte]

/-- With `k + 1` bytes, the last of them at most `1`, the numbers below `2 * 128 ^ k` are read. -/
theorem takes_varintUpTo (k n : Nat) :
    Takes (readVarintUpTo k) (writeVarint n) n (n < 2 * 128 ^ k) := by
  induction k generalizing n with
  | zero => simpa using takes_lastDigit n
  | succ k ih =>
    have hpow : 128 ^ (k + 1) = 128 * 128 ^ k := Nat.pow_succ'
    have hpos : 0 < 128 ^ k := Nat.pow_pos (by decide)
    rw [writeVarint]
    split
    · rename_i hn
      have hbyte : UInt8.ofNat n < 128 := by
        rw [UInt8.lt_iff_toNat_lt, toNat_last hn]
        exact hn
      have hfits : n < 2 * 128 ^ (k + 1) := by omega
      refine ((Takes.pure n).congr (iff_of_true trivial hfits)).cons rfl fun rest => ?_
      rw [readVarintUpTo, if_pos hbyte, toNat_last hn]
    · have hbyte : ¬ UInt8.ofNat (n % 128 + 128) < 128 := by
        rw [UInt8.lt_iff_toNat_lt, toNat_digit]
        simp
      have hfits : n / 128 < 2 * 128 ^ k ↔ n < 2 * 128 ^ (k + 1) := by omega
      have hmap := (ih (n / 128)).map fun high => n % 128 + 128 - 128 + 128 * high
      rw [Nat.add_sub_cancel, Nat.mod_add_div] at hmap
      refine (hmap.congr hfits).cons rfl fun rest => ?_
      rw [readVarintUpTo, if_neg hbyte, toNat_digit, Nat.add_sub_cancel]

/-- The numbers read in base 128 are the words. -/
theorem takes_varint (n : Nat) : Takes readVarint (writeVarint n) n (n < UInt64.size) :=
  takes_varintUpTo 9 n

/-- A number below the number of variants is read as such. -/
theorem takes_variant {count n : Nat} (h : n < count) (hcount : count ≤ UInt32.size) :
    Takes (readVariant count) (writeVarint n) n True := by
  have hwide : ¬ UInt32.size ≤ n := by omega
  have hknown : ¬ count ≤ n := by omega
  have hword : n < UInt64.size := by
    simp only [UInt64.size, UInt32.size] at hwide ⊢
    omega
  have hvariant : Takes (readVariant count) (writeVarint n ++ []) n (n < UInt64.size ∧ True) := by
    apply (takes_varint n).andThen (.pure n)
    intro rest
    simp [hwide, hknown, pure, Except.pure]
  rw [List.append_nil] at hvariant
  exact hvariant.congr (by simp [hword])

/-- A proper part is shorter. -/
theorem length_lt_of_cut {bytes part : List UInt8} (h : part <+: bytes) (hne : part ≠ bytes) :
    part.length < bytes.length :=
  lt_of_le_of_ne h.length_le fun heq => hne (h.eq_of_length heq)

/-! ## Codecs -/

namespace Codec

/-- A codec reads what it has written, for the values that fit. -/
def Lawful (c : Codec α) (fits : α → Prop) : Prop := ∀ a, Takes c.read (c.write a) a (fits a)

/-- A codec is told the same condition in other words. -/
theorem Lawful.congr {c : Codec α} {p q : α → Prop} (h : c.Lawful p) (hpq : ∀ a, p a ↔ q a) :
    c.Lawful q := fun a => (h a).congr (hpq a)

/-- Every 32-bit word can be written. -/
theorem word32_lawful : word32.Lawful fun _ => True := by
  intro n
  have hmap := (takes_low (k := 4) n.toNat_lt).map UInt32.ofNat
  rwa [UInt32.ofNat_toNat] at hmap

/-- Every 64-bit word can be written. -/
theorem word64_lawful : word64.Lawful fun _ => True := by
  intro n
  have hmap := (takes_low (k := 8) n.toNat_lt).map UInt64.ofNat
  rwa [UInt64.ofNat_toNat] at hmap

/-- Both truth values can be written. -/
theorem bool_lawful : bool.Lawful fun _ => True := by
  intro b
  apply (Takes.pure b).cons rfl
  intro rest
  cases b <;> rfl

/-- Nothing is written for the unit. -/
theorem unit_lawful : unit.Lawful fun _ => True := fun _ => .pure ()

/-- Reads text once its number of bytes is known. -/
def readText (size : Nat) : Reader String := fun bytes => do
  if bytes.length < size then throw .endedInText
  match String.fromUTF8? ⟨(bytes.take size).toArray⟩ with
  | some s => return (s, bytes.drop size)
  | none => throw .invalidText

private theorem takes_readText (s : String) :
    Takes (readText s.toUTF8.size) s.toUTF8.data.toList s True := by
  have hlength : s.toUTF8.data.toList.length = s.toUTF8.size := Array.length_toList
  have hvalid : String.fromUTF8? ⟨s.toUTF8.data.toList.toArray⟩ = some s := by
    simp only [Array.toArray_toList, String.toUTF8_eq_toByteArray, String.fromUTF8?]
    rw [dif_pos s.isValidUTF8]
    rfl
  refine ⟨fun _ rest => ?_, fun h => absurd trivial h, fun part hpart hne => ?_⟩
  · have hlong : ¬ (s.toUTF8.data.toList ++ rest).length < s.toUTF8.size := by
      rw [List.length_append]
      omega
    simp only [readText, hlong, ite_false, List.take_left' hlength, List.drop_left' hlength,
      hvalid]
    rfl
  · have hshort : part.length < s.toUTF8.size := hlength ▸ length_lt_of_cut hpart hne
    simp only [readText, hshort, ite_true]
    exact ⟨.endedInText, rfl, fun _ => Or.inr rfl⟩

/-- Text is taken by its number of bytes. -/
theorem text_lawful : text.Lawful fun s => s.utf8ByteSize < UInt64.size := by
  intro s
  apply Takes.congr ((takes_varint s.toUTF8.size).andThen (takes_readText s) fun _ => rfl)
  simp

/-- A value that is packed from another one is written as that one. -/
theorem Lawful.iso {c : Codec α} {fits : α → Prop} {unpack : β → α} {pack : α → β}
    (h : c.Lawful fits) (hpack : ∀ b, pack (unpack b) = b) :
    (c.iso unpack pack).Lawful fun b => fits (unpack b) := by
  intro b
  have hmap := (h (unpack b)).map pack
  rwa [hpack] at hmap

/-- Of a pair both parts have to fit. -/
theorem Lawful.pair {c : Codec α} {d : Codec β} {p : α → Prop} {q : β → Prop} (h : c.Lawful p)
    (h' : d.Lawful q) : (c.pair d).Lawful fun x => p x.1 ∧ q x.2 := by
  rintro ⟨a, b⟩
  exact (h a).andThen ((h' b).map fun b => (a, b)) fun _ => rfl

/-- Of two variants the one that is present has to fit. -/
theorem Lawful.either {c : Codec α} {d : Codec β} {p : α → Prop} {q : β → Prop} (h : c.Lawful p)
    (h' : d.Lawful q) : (c.either d).Lawful (Sum.elim p q) := by
  have hnumber {n : Nat} (hn : n < 2) := takes_variant hn (by decide)
  rintro (a | b)
  · apply Takes.congr ((hnumber Nat.two_pos).andThen ((h a).map Sum.inl) fun _ => rfl)
    simp
  · apply Takes.congr ((hnumber Nat.one_lt_two).andThen ((h' b).map Sum.inr) fun _ => rfl)
    simp

/-- Every value has to be listed. -/
theorem oneOf_lawful [BEq α] [LawfulBEq α] {values : List α} (h : ∀ a, a ∈ values)
    (hcount : values.length ≤ UInt32.size) : (oneOf values).Lawful fun _ => True := by
  intro a
  have hnumber := takes_variant (List.idxOf_lt_length_of_mem (h a)) hcount
  have htakes : Takes (oneOf values).read (writeVarint (values.idxOf a) ++ []) a (True ∧ True) := by
    apply hnumber.andThen (.pure a)
    intro rest
    simp [List.getElem?_idxOf (h a), pure, Except.pure]
  rw [List.append_nil, and_true] at htakes
  exact htakes

/-- An optional value has to fit if it is present. -/
theorem Lawful.option {c : Codec α} {p : α → Prop} (h : c.Lawful p) :
    c.option.Lawful fun o => ∀ a ∈ o, p a := by
  rintro (_ | a)
  · apply Takes.congr ((bool_lawful false).andThen (.pure none) fun _ => rfl)
    simp
  · apply Takes.congr ((bool_lawful true).andThen ((h a).map some) fun _ => rfl)
    simp

/-- Values in a row are taken one after the other. -/
theorem takes_many {c : Codec α} {p : α → Prop} (h : c.Lawful p) (l : List α) :
    Takes (readMany c.read l.length) (l.flatMap c.write) l (∀ a ∈ l, p a) := by
  induction l with
  | nil => exact (Takes.pure []).congr (by simp)
  | cons a l ih =>
    rw [List.flatMap_cons]
    apply Takes.congr ((h a).andThen (ih.map (a :: ·)) fun _ => rfl)
    simp

/-- A list fits if its length is a word and every element fits. -/
theorem Lawful.list {c : Codec α} {p : α → Prop} (h : c.Lawful p) :
    c.list.Lawful fun l => l.length < UInt64.size ∧ ∀ a ∈ l, p a :=
  fun l => (takes_varint l.length).andThen (takes_many h l) fun _ => rfl

/-- A table fits if its size is a word and every entry fits. -/
theorem Lawful.table [DecidableEq α] {c : Codec α} {d : Codec β} {p : α → Prop} {q : β → Prop}
    (h : c.Lawful p) (h' : d.Lawful q) : (c.table d).Lawful fun t =>
      t.toList.length < UInt64.size ∧ ∀ entry ∈ t.toList, p entry.1 ∧ q entry.2 :=
  (h.pair h').list.iso Table.ofList_toList

end Codec

end TorusRouting.File
