import TorusRouting.CommandLine.Setting

/-!
# Arguments

Arguments are read from left to right. The first one that is refused, or that asks for help, ends
the reading; what follows it is not looked at.
-/

namespace TorusRouting.CommandLine

/-- What a tool is called with. -/
structure Tool where
  name : String
  /-- The files it works on, all required. -/
  files : List Choice
  parameters : List Parameter

/-- How much a help text says. -/
inductive Detail where
  | brief
  | full
  deriving DecidableEq, Repr, Inhabited

/-- Why reading ended early. -/
inductive Stop where
  | usage
  | help (detail : Detail)
  deriving DecidableEq, Repr, Inhabited

/-- Split `name=value` at the first equals sign. -/
def splitValue : List Char → List Char × Option (List Char)
  | [] => ([], none)
  | c :: cs =>
    if c = '=' then ([], some cs)
    else
      let (name, value) := splitValue cs
      (c :: name, value)

/-- The form of one argument. -/
inductive Form where
  /-- Text that does not start with a dash, or a lone dash. -/
  | plain
  /-- Two dashes: only files follow. -/
  | filesOnly
  /-- One dash and a letter. -/
  | short (letter : Char)
  /-- Two dashes and a name, with the value after an equals sign. -/
  | long (name : String) (value : Option String)
  deriving DecidableEq, Repr, Inhabited

/-- The form that an argument has by its dashes. -/
def Form.of (s : String) : Form :=
  match s.toList with
  | ['-', '-'] => .filesOnly
  | '-' :: '-' :: cs =>
    let (name, value) := splitValue cs
    .long (String.ofList name) (value.map String.ofList)
  | '-' :: c :: _ => .short c
  | _ => .plain

/-- Arguments sorted into files, flags, and options with their values. -/
structure Arguments where
  files : List String := []
  flags : List String := []
  options : List (String × String) := []
  deriving DecidableEq, Repr, Inhabited

namespace Arguments

/-- Add a file; one too many and a file without a name are refused. -/
def addFile (t : Tool) (a : Arguments) (s : String) : Except Stop Arguments :=
  if s.isEmpty || t.files.length ≤ a.files.length then .error .usage
  else .ok { a with files := a.files ++ [s] }

/-- Add a flag, at most once. -/
def addFlag (a : Arguments) (name : String) : Except Stop Arguments :=
  if a.flags.contains name then .error .usage else .ok { a with flags := a.flags ++ [name] }

/-- Add an option with an accepted value, at most once. -/
def addOption (a : Arguments) (name : String) (values : Values) (v : String) :
    Except Stop Arguments :=
  if values.accepts v && !a.options.any (·.1 == name) then
    .ok { a with options := a.options ++ [(name, v)] }
  else .error .usage

/-- The value of a setting. -/
def get {α : Type} (a : Arguments) (s : Setting α) : α :=
  ((a.options.lookup s.name).bind s.read).getD s.default

end Arguments

namespace Tool

/-- Read arguments onto those already read. An unknown option, a repeated one, a flag with a value
and an option without one are refused. -/
def readOnto (t : Tool) : List String → Arguments → Except Stop Arguments
  | [], a => .ok a
  | s :: rest, a =>
    match Form.of s with
    | .plain =>
      match a.addFile t s with
      | .ok a => readOnto t rest a
      | .error x => .error x
    | .filesOnly => rest.foldlM (Arguments.addFile t) a
    | .short c => if c = 'h' then .error (.help .brief) else .error .usage
    | .long "help" none => .error (.help .full)
    | .long name value =>
      match t.parameters.find? (·.name == name) with
      | none => .error .usage
      | some p =>
        match p.values, value with
        | none, some _ => .error .usage
        | none, none =>
          match a.addFlag name with
          | .ok a => readOnto t rest a
          | .error x => .error x
        | some values, some v =>
          match a.addOption name values v with
          | .ok a => readOnto t rest a
          | .error x => .error x
        | some values, none =>
          match rest with
          | [] => .error .usage
          | v :: rest =>
            match Form.of v, a.addOption name values v with
            | .plain, .ok a => readOnto t rest a
            | _, _ => .error .usage

/-- Read all arguments. -/
def read (t : Tool) (args : List String) : Except Stop Arguments := do
  let a ← t.readOnto args {}
  if a.files.length < t.files.length then .error .usage
  return a

end Tool

end TorusRouting.CommandLine
