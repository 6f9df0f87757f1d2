import TorusRouting.Word

/-!
# Parameters of a tool

A setting is an option with a value of its own type: it knows how to read the value and what holds
when the option is absent. A parameter is what reading and explaining the arguments need of a
setting or of a flag.
-/

namespace TorusRouting.CommandLine

/-- A named value and what it means. -/
structure Choice where
  name : String
  about : String
  deriving DecidableEq, Repr, Inhabited

/-- The values of an option. -/
structure Values where
  accepts : String → Bool
  /-- The value when the option is absent, as text. -/
  default : String
  /-- Every accepted value, for an option with a fixed list of them. -/
  choices : List Choice := []

/-- A flag, or an option with values. -/
structure Parameter where
  name : String
  about : String
  values : Option Values

/-- A parameter without a value. -/
def Parameter.flag (name about : String) : Parameter := ⟨name, about, none⟩

/-- An option whose values stand for elements of `α`. -/
structure Setting (α : Type) where
  name : String
  about : String
  read : String → Option α
  default : α
  /-- How the default is written. -/
  text : String
  choices : List Choice := []

/-- What is known of a setting without its type. -/
def Setting.parameter {α : Type} (s : Setting α) : Parameter where
  name := s.name
  about := s.about
  values := some ⟨fun v => (s.read v).isSome, s.text, s.choices⟩

/-! ## Numbers -/

/-- The number of a nonempty list of decimal digits. -/
def number? (cs : List Char) : Option Nat :=
  if cs.isEmpty || !cs.all Char.isDigit then none
  else some (cs.foldl (fun n c => 10 * n + (c.toNat - '0'.toNat)) 0)

/-- A decimal number of 64 bits, with an optional plus sign. -/
def word64? (s : String) : Option UInt64 := do
  let n ← match s.toList with
    | '+' :: cs => number? cs
    | cs => number? cs
  if n < UInt64.size then some (UInt64.ofNat n) else none

/-- A decimal number of 32 bits, with an optional sign; only zero may be negative. -/
def word32? (s : String) : Option UInt32 := do
  let n ← match s.toList with
    | '+' :: cs => number? cs
    | '-' :: cs => (number? cs).filter (· = 0)
    | cs => number? cs
  if n < UInt32.size then some (UInt32.ofNat n) else none

namespace Setting

/-- A setting whose value is a 64-bit number. -/
def word64 (name about : String) (default : UInt64) : Setting UInt64 where
  name := name
  about := about
  read := word64?
  default := default
  text := toString default.toNat

/-- A setting whose value is a 32-bit number. -/
def word32 (name about : String) (default : UInt32) : Setting UInt32 where
  name := name
  about := about
  read := word32?
  default := default
  text := toString default.toNat

/-- A setting with a list of named values. -/
def oneOf {α : Type} [DecidableEq α] (name about : String) (choices : List (Choice × α))
    (default : α) : Setting α where
  name := name
  about := about
  read v := (choices.find? (·.1.name == v)).map (·.2)
  default := default
  text := ((choices.find? (·.2 == default)).map (·.1.name)).getD ""
  choices := choices.map (·.1)

end Setting

end TorusRouting.CommandLine
