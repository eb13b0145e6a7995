import CriteriaQuery.Settings

/-!
# Options of the command line

Every option has a long name and takes one value, which stands in the next argument or after
an equals sign; a value in an argument of its own does not start with a hyphen, unless it is
one hyphen. No option is given twice, the catalog has to be given, and there are no other
arguments. Help or version, wherever reached, is all that is asked for.

## Implementation notes

Arguments are read from left to right, and a value is checked when it is read, so what
comes after a fault, or after a request for help or version, does not matter.
-/

namespace CriteriaQuery.CommandLine

/-- The options of a compilation. -/
structure Options where
  catalog : String
  query : String := "-"
  target : Target := .sql
  dialect : Option Dialect := none
  maxPageSize : Option UInt64 := none
  config : Option String := none
deriving DecidableEq

/-- What arguments ask for. -/
inductive Invocation
  | compile (options : Options)
  | help
  | version
deriving DecidableEq

/-- An option that takes a value. -/
inductive OptionName
  | catalog
  | query
  | backend
  | dialect
  | maxPageSize
  | config
deriving DecidableEq

/-- The option of a long name. -/
def OptionName.ofText? : String → Option OptionName
  | "catalog" => some .catalog
  | "query" => some .query
  | "backend" => some .backend
  | "dialect" => some .dialect
  | "max-page-size" => some .maxPageSize
  | "config" => some .config
  | _ => none

/-- The values of the options read so far. -/
structure Given where
  catalog : Option String := none
  query : Option String := none
  target : Option Target := none
  dialect : Option Dialect := none
  maxPageSize : Option UInt64 := none
  config : Option String := none

namespace Given

/-- A value for an option that has none yet. -/
def fresh? {α : Type} (old new : Option α) : Option (Option α) :=
  if old.isSome then none else new.map some

/-- A path: any text but the empty one. -/
def path? (value : String) : Option String := if value.isEmpty then none else some value

/-- Sets an option; none when its value is unfit or it has one already. -/
def set? (g : Given) (name : OptionName) (value : String) : Option Given :=
  match name with
  | .catalog => (fresh? g.catalog (path? value)).map fun catalog => { g with catalog }
  | .query => (fresh? g.query (some value)).map fun query => { g with query }
  | .backend => (fresh? g.target (Target.ofToken? value)).map fun target => { g with target }
  | .dialect => (fresh? g.dialect (Dialect.ofToken? value)).map fun dialect => { g with dialect }
  | .maxPageSize =>
    (fresh? g.maxPageSize (Settings.countOfText value).toOption).map fun maxPageSize =>
      { g with maxPageSize }
  | .config => (fresh? g.config (path? value)).map fun config => { g with config }

/-- The options, if the catalog is among them. -/
def options? (g : Given) : Option Options :=
  g.catalog.map fun catalog =>
    { catalog
      query := g.query.getD "-"
      target := g.target.getD .sql
      dialect := g.dialect
      maxPageSize := g.maxPageSize
      config := g.config }

end Given

/-- The form of an argument. -/
inductive Argument
  /-- Two hyphens: no options come after it. -/
  | terminator
  | long (name : String) (value : Option String)
  /-- A hyphen with letters. -/
  | short (letters : List Char)
  | value (text : String)

/-- The form of an argument. -/
def Argument.ofText (text : String) : Argument :=
  match text.toList with
  | ['-', '-'] => .terminator
  | '-' :: '-' :: rest =>
    let name := String.ofList (rest.takeWhile (· ≠ '='))
    match rest.dropWhile (· ≠ '=') with
    | _ :: text => .long name (some (String.ofList text))
    | [] => .long name none
  | '-' :: c :: rest => .short (c :: rest)
  | _ => .value text

/-- What a request in place of options asks for. -/
def request? : Argument → Option Invocation
  | .long "help" none => some .help
  | .long "version" none => some .version
  | .short ('h' :: _) => some .help
  | .short ('V' :: _) => some .version
  | _ => none

/-- What arguments ask for, given the options read before them. -/
def readArguments? : Given → List String → Option Invocation
  | g, [] => g.options?.map .compile
  | g, text :: rest =>
    let argument := Argument.ofText text
    match request? argument with
    | some invocation => some invocation
    | none =>
      match argument, rest with
      | .terminator, [] => g.options?.map .compile
      | .long name (some value), rest => do
        readArguments? (← g.set? (← OptionName.ofText? name) value) rest
      | .long name none, value :: rest => do
        let name ← OptionName.ofText? name
        match Argument.ofText value with
        | .value value => readArguments? (← g.set? name value) rest
        | _ => none
      | _, _ => none

/-- What arguments ask for; none when they are not understood. -/
def Invocation.ofArguments? (arguments : List String) : Option Invocation :=
  readArguments? {} arguments

end CriteriaQuery.CommandLine
