import TorusRouting.Table

/-!
# Binary codecs

A codec writes a value as bytes and reads one off the front of a byte list, giving back the rest.
Numbers of fixed width are little endian; counts and variant numbers are written in base 128, low
digits first, with the high bit set on every byte but the last. Compound codecs are built from the
codecs of their parts, so that reader and writer agree on the order of fields.
-/

namespace TorusRouting.File

/-- Why bytes could not be read. -/
inductive FormatError where
  /-- The bytes end inside a number. -/
  | ended
  /-- The bytes end inside a text. -/
  | endedInText
  /-- A text is not valid UTF-8. -/
  | invalidText
  /-- A number in base 128 does not fit into 64 bits. -/
  | longVarint
  /-- A variant number past the last of `count` variants. -/
  | unknownVariant (number count : Nat)
  /-- A variant number of more than 32 bits. -/
  | wideVariant
  deriving DecidableEq, Repr

/-- The text of a format error. -/
def FormatError.message (e : FormatError) : String :=
  "serialization error: " ++ match e with
  | ended => "failed to fill whole buffer"
  | endedInText => "unexpected EOF reading number of bytes expected in field prefix"
  | invalidText => "invalid utf-8 in string"
  | longVarint => "continuation bit indicated an invalid variable-length integer"
  | unknownVariant n count =>
    s!"invalid value: integer `{n}`, expected variant index 0 <= i < {count}"
  | wideVariant => "Enum identifiers larger than u32 are not supported"

/-- A value read off the front of some bytes, with the rest. -/
abbrev Reader (α : Type) := List UInt8 → Except FormatError (α × List UInt8)

/-- A writer and a reader of one type. -/
structure Codec (α : Type) where
  write : α → List UInt8
  read : Reader α

/-! ## Numbers -/

/-- The low `k` bytes of a number, lowest first. -/
def writeLow : (k n : Nat) → List UInt8
  | 0, _ => []
  | k + 1, n => UInt8.ofNat n :: writeLow k (n / 256)

/-- The number of `k` bytes, lowest first. -/
def readLow : (k : Nat) → Reader Nat
  | 0, bytes => .ok (0, bytes)
  | _ + 1, [] => .error .ended
  | k + 1, b :: bytes => do
    let (n, rest) ← readLow k bytes
    return (b.toNat + 256 * n, rest)

/-- A number in base 128. -/
def writeVarint (n : Nat) : List UInt8 :=
  if n < 128 then [UInt8.ofNat n] else UInt8.ofNat (n % 128 + 128) :: writeVarint (n / 128)

/-- A number in base 128 of at most `k + 1` bytes, the last of which may only be `0` or `1` when
all are used. -/
def readVarintUpTo : (k : Nat) → Reader Nat
  | _, [] => .error .ended
  | 0, b :: bytes => if b ≤ 1 then .ok (b.toNat, bytes) else .error .longVarint
  | k + 1, b :: bytes =>
    if b < 128 then .ok (b.toNat, bytes)
    else do
      let (n, rest) ← readVarintUpTo k bytes
      return (b.toNat - 128 + 128 * n, rest)

/-- Ten bytes hold every 64-bit number. -/
def readVarint : Reader Nat := readVarintUpTo 9

/-- The number of a variant out of `count`. -/
def readVariant (count : Nat) : Reader Nat := fun bytes => do
  let (n, rest) ← readVarint bytes
  if UInt32.size ≤ n then throw .wideVariant
  if count ≤ n then throw (.unknownVariant n count)
  return (n, rest)

/-- Read `n` values one after the other. -/
def readMany {α : Type} (read : Reader α) : (n : Nat) → Reader (List α)
  | 0, bytes => .ok ([], bytes)
  | n + 1, bytes => do
    let (a, bytes) ← read bytes
    let (l, bytes) ← readMany read n bytes
    return (a :: l, bytes)

namespace Codec

variable {α β : Type}

/-- Four bytes, the lowest first. -/
def word32 : Codec UInt32 where
  write n := writeLow 4 n.toNat
  read bytes := do
    let (n, rest) ← readLow 4 bytes
    return (UInt32.ofNat n, rest)

/-- Eight bytes, the lowest first. -/
def word64 : Codec UInt64 where
  write n := writeLow 8 n.toNat
  read bytes := do
    let (n, rest) ← readLow 8 bytes
    return (UInt64.ofNat n, rest)

/-- One byte; every byte but `0` reads as true. -/
def bool : Codec Bool where
  write b := [if b then 1 else 0]
  read
    | [] => .error .ended
    | b :: rest => .ok (b != 0, rest)

/-- UTF-8 after the number of bytes. -/
def text : Codec String where
  write s := writeVarint s.toUTF8.size ++ s.toUTF8.data.toList
  read bytes := do
    let (n, rest) ← readVarint bytes
    if rest.length < n then throw .endedInText
    match String.fromUTF8? ⟨(rest.take n).toArray⟩ with
    | some s => return (s, rest.drop n)
    | none => throw .invalidText

/-! ## Compound values -/

/-- Nothing is written for a value that is the only one. -/
def unit : Codec Unit where
  write _ := []
  read bytes := .ok ((), bytes)

/-- Carry a codec over to another type. -/
def iso (c : Codec α) (unpack : β → α) (pack : α → β) : Codec β where
  write b := c.write (unpack b)
  read bytes := do
    let (a, rest) ← c.read bytes
    return (pack a, rest)

/-- One value after the other. -/
def pair (c : Codec α) (d : Codec β) : Codec (α × β) where
  write p := c.write p.1 ++ d.write p.2
  read bytes := do
    let (a, bytes) ← c.read bytes
    let (b, bytes) ← d.read bytes
    return ((a, b), bytes)

/-- A variant number, `0` or `1`, and then the value of that variant. -/
def either (c : Codec α) (d : Codec β) : Codec (α ⊕ β) where
  write
    | .inl a => writeVarint 0 ++ c.write a
    | .inr b => writeVarint 1 ++ d.write b
  read bytes := do
    let (n, bytes) ← readVariant 2 bytes
    if n = 0 then
      let (a, bytes) ← c.read bytes
      return (.inl a, bytes)
    else
      let (b, bytes) ← d.read bytes
      return (.inr b, bytes)

/-- The variant number of one of the listed values. -/
def oneOf [BEq α] (values : List α) : Codec α where
  write a := writeVarint (values.idxOf a)
  read bytes := do
    let (n, rest) ← readVariant values.length bytes
    match values[n]? with
    | some a => return (a, rest)
    | none => throw (.unknownVariant n values.length)

/-- A presence byte, then the value if there is one. -/
def option (c : Codec α) : Codec (Option α) where
  write
    | none => bool.write false
    | some a => bool.write true ++ c.write a
  read bytes := do
    let (present, bytes) ← bool.read bytes
    if present then
      let (a, bytes) ← c.read bytes
      return (some a, bytes)
    else return (none, bytes)

/-- The number of elements, then the elements. -/
def list (c : Codec α) : Codec (List α) where
  write l := writeVarint l.length ++ l.flatMap c.write
  read bytes := do
    let (n, bytes) ← readVarint bytes
    readMany c.read n bytes

/-- The entries of a table in order. Of a key that is read again the first place and the last
value stay. -/
def table [DecidableEq α] (c : Codec α) (d : Codec β) : Codec (Table α β) :=
  (c.pair d).list.iso Table.toList Table.ofList

end Codec

end TorusRouting.File
