import TorusRouting.CommandLine.Arguments

/-!
# Help texts

A brief help text has one entry per parameter, in two columns. It is set for lines of 100 columns:
when the left column takes more than 40 of them and some explanation does not fit beside it, the
explanations of that section stand on lines of their own. A full help text explains every choice
as well; a tool without choices has the brief text only.
-/

namespace TorusRouting.CommandLine

/-- Fill a text with blanks on the right up to a width. -/
def alignLeft (width : Nat) (s : String) : String := s.pushn ' ' (width - s.length)

/-- Two texts with a blank between them, if neither is empty. -/
def joinWords (a b : String) : String :=
  if a.isEmpty then b else if b.isEmpty then a else a ++ " " ++ b

/-- One entry of a help text. -/
structure Entry where
  label : String
  about : String
  values : Option Values := none

namespace Entry

/-- The entry of a file that must be given. -/
def ofFile (f : Choice) : Entry := { label := s!"<{f.name}>", about := f.about }

/-- The entry of a parameter; its value is named after it. -/
def ofParameter (p : Parameter) : Entry :=
  let option := "    --" ++ p.name
  let placeholder := p.name.map fun c => if c = '-' then '_' else c.toUpper
  ⟨if p.values.isSome then s!"{option} <{placeholder}>" else option, p.about, p.values⟩

/-- The explanation of an entry in one line. -/
def line (e : Entry) : String :=
  match e.values with
  | none => e.about
  | some v =>
    let names := ", ".intercalate (v.choices.map (·.name))
    let choices := if names.isEmpty then "" else s!"[possible values: {names}]"
    joinWords e.about (joinWords s!"[default: {v.default}]" choices)

/-- Indentation of an explanation on a line of its own. -/
def indent : String := "          "

/-- An entry with its explanation in a column of its own. -/
def inColumn (width : Nat) (e : Entry) : String := s!"  {alignLeft (width + 2) e.label}{e.line}"

/-- An entry with its explanation on the next line. -/
def onNextLine (e : Entry) : String := s!"  {e.label}\n{indent}{e.line}"

/-- The choices of an option, one per line. -/
def choiceLines (choices : List Choice) : List String :=
  let width := (choices.map (·.name.length)).foldl max 0
  choices.map fun c => indent ++ "- " ++ alignLeft (width + 2) (c.name ++ ":") ++ c.about

/-- An entry explained at length. -/
def paragraph (e : Entry) : String :=
  let choices (v : Values) :=
    if v.choices.isEmpty then []
    else ["", indent ++ "Possible values:"] ++ choiceLines v.choices
  let values := match e.values with
    | none => []
    | some v => choices v ++ [indent, s!"{indent}[default: {v.default}]"]
  "\n".intercalate (["  " ++ e.label, indent ++ e.about] ++ values)

end Entry

/-- The entries of a section, briefly. -/
def briefSection (entries : List Entry) : String :=
  let width := (entries.map (·.label.length)).foldl max 0
  let taken := width + 4
  let apart := 40 < taken && entries.any (100 < taken + ·.line.length)
  "\n".intercalate (entries.map fun e => if apart then e.onNextLine else e.inColumn width)

/-- The entries of a section at length. -/
def fullSection (entries : List Entry) : String := "\n\n".intercalate (entries.map (·.paragraph))

namespace Tool

/-- Is there more to say than the brief text does? -/
def hasFullHelp (t : Tool) : Bool :=
  t.parameters.any fun p => p.values.any (!·.choices.isEmpty)

/-- The help text of a tool. -/
def help (t : Tool) (detail : Detail) : String :=
  let files := t.files.map Entry.ofFile
  let full := t.hasFullHelp && detail = .full
  let hint :=
    if full then " (see a summary with '-h')"
    else if t.hasFullHelp then " (see more with '--help')"
    else ""
  let options := t.parameters.map Entry.ofParameter ++
    [{ label := "-h, --help", about := "Print help" ++ hint }]
  let part := if full then fullSection else briefSection
  let usage := " ".intercalate (["Usage:", t.name, "[OPTIONS]"] ++ files.map (·.label))
  "\n\n".intercalate [usage, "Arguments:\n" ++ part files, "Options:\n" ++ part options] ++ "\n"

end Tool

end TorusRouting.CommandLine
