import CriteriaQuery.Compile.Backend
import CriteriaQuery.Text.Joined
import CriteriaQuery.Yaml.Readable

/-!
# Settings

The settings of the compiler: page sizes, dialect, and the session cache. They come from a
YAML text or from environment variables, each setting with a default, and are checked as a
whole: every size lies in its range, and the default page size is at most the greatest one.
-/

namespace CriteriaQuery

/-- The settings of the compiler. -/
structure Settings where
  defaultPageSize : UInt64 := 20
  maxPageSize : UInt64 := 500
  dialect : Dialect := .mysql
  cacheEnabled : Bool := true
  cacheMaxEntries : UInt64 := 256
deriving DecidableEq

/-- A setting that has a range. -/
inductive SizeSetting
  | cacheMaxEntries
  | defaultPageSize
  | maxPageSize
deriving DecidableEq

/-- Why a variable's value cannot be read. -/
inductive ValueFault
  | emptyNumber
  | invalidDigit
  | numberTooLarge
  | notTruthValue
  | unknownDialect (token : String)
deriving DecidableEq

/-- Why settings are refused. -/
inductive SettingsError
  | unreadableVariable (name value : String) (fault : ValueFault)
  | unreadableFile (reason : String)
  | unreadableText (content : String)
  /-- Settings out of their ranges, of which there is at least one. -/
  | outOfRange (settings : List SizeSetting)
  | sizesCross (defaultSize maxSize : UInt64)
deriving DecidableEq

namespace SizeSetting

/-- The settings that have a range, in the order of their names. -/
def all : List SizeSetting := [.cacheMaxEntries, .defaultPageSize, .maxPageSize]

/-- The name of a setting. -/
def name : SizeSetting → String
  | .cacheMaxEntries => "cache_max_entries"
  | .defaultPageSize => "default_page_size"
  | .maxPageSize => "max_page_size"

/-- The greatest value allowed; the least one is always 1. -/
def greatest : SizeSetting → UInt64
  | .cacheMaxEntries => 1000000
  | .defaultPageSize => 10000
  | .maxPageSize => 100000

/-- The value of a setting. -/
def value (s : Settings) : SizeSetting → UInt64
  | .cacheMaxEntries => s.cacheMaxEntries
  | .defaultPageSize => s.defaultPageSize
  | .maxPageSize => s.maxPageSize

/-- Whether a setting is in its range. -/
def isInRange (s : Settings) (setting : SizeSetting) : Bool :=
  1 ≤ setting.value s && setting.value s ≤ setting.greatest

/-- The wording for a setting out of its range. -/
def message : SizeSetting → String
  | .cacheMaxEntries => "Cache size must be between 1 and 1000000"
  | .defaultPageSize => "Default page size must be between 1 and 10000"
  | .maxPageSize => "Max page size must be between 1 and 100000"

/-- The wording with the setting's name in front. -/
def namedMessage (setting : SizeSetting) : String := setting.name ++ ": " ++ setting.message

end SizeSetting

/-- The wording of a value's fault. -/
def ValueFault.message : ValueFault → String
  | .emptyNumber => "cannot parse integer from empty string"
  | .invalidDigit => "invalid digit found in string"
  | .numberTooLarge => "number too large to fit in target type"
  | .notTruthValue => "provided string was not " ++ ticked "true" ++ " or " ++ ticked "false"
  | .unknownDialect token => (CompileError.unknownDialect token).message

namespace SettingsError

/-- The wording of the fault behind an error, when it has one of its own. -/
def cause? : SettingsError → Option String
  | .unreadableVariable _ _ fault => some fault.message
  | .unreadableFile reason => some reason
  | .unreadableText _ => some "the text does not describe settings"
  | .outOfRange settings => some (Text.joined "\n" (settings.map SizeSetting.namedMessage))
  | .sizesCross _ _ => none

/-- The wording of an unreadable value. -/
def unreadable (field value cause : String) : String :=
  "Parse error for " ++ field ++ ": " ++ value ++ " - " ++ cause

/-- The wording of an error. -/
def message (e : SettingsError) : String :=
  let cause := e.cause?.getD ""
  match e with
  | .unreadableVariable name value _ => unreadable name value cause
  | .unreadableFile _ => unreadable "yaml_file" "file read failed" cause
  | .unreadableText content => unreadable "yaml_content" content cause
  | .outOfRange _ => "Validation error: " ++ cause
  | .sizesCross defaultSize maxSize =>
    "Invalid configuration: default page size " ++ toString defaultSize.toNat ++
      " exceeds max page size " ++ toString maxSize.toNat

end SettingsError

namespace Settings

/-- The page limits of the settings. -/
def pageLimits (s : Settings) : PageLimits := ⟨s.defaultPageSize, s.maxPageSize⟩

/-- Checks the ranges, and then the two page sizes against each other. -/
def check (s : Settings) : Except SettingsError Unit :=
  match SizeSetting.all.filter fun setting => !setting.isInRange s with
  | [] =>
    if s.maxPageSize < s.defaultPageSize then
      .error (.sizesCross s.defaultPageSize s.maxPageSize)
    else .ok ()
  | settings => .error (.outOfRange settings)

/-- The settings, if they pass the check. -/
def checked (s : Settings) : Except SettingsError Settings := s.check.map fun _ => s

section Reading

open Readable

variable {ν : Type} [Readable ν]

/-- The dialect of a name out of the choice. -/
def readDialect? (v : ν) : Reading Dialect := do
  match (← choice? v) with
  | "mysql" => return .mysql
  | "postgres" => return .postgres
  | _ => failure

/-- Settings, with defaults for those that are not given. -/
def read? (v : ν) : Reading Settings := do
  let members ← record?
    ["default_page_size", "max_page_size", "dialect", "cache_enabled", "cache_max_entries"] v
  let defaultPageSize ← optional "default_page_size" 20 count? members
  let maxPageSize ← optional "max_page_size" 500 count? members
  let dialect ← optional "dialect" .mysql readDialect? members
  let cacheEnabled ← optional "cache_enabled" true truth? members
  let cacheMaxEntries ← optional "cache_max_entries" 256 count? members
  return { defaultPageSize, maxPageSize, dialect, cacheEnabled, cacheMaxEntries }

end Reading

/-- The settings of a YAML text. -/
def ofText (text : String) : Except SettingsError Settings :=
  match Yaml.readAs? read? text with
  | some s => s.checked
  | none => .error (.unreadableText text)

/-- The settings as a JSON value. -/
def toJson (s : Settings) : Json :=
  .object [("default_page_size", Json.ofUInt64 s.defaultPageSize),
    ("max_page_size", Json.ofUInt64 s.maxPageSize), ("dialect", .string s.dialect.name),
    ("cache_enabled", .bool s.cacheEnabled),
    ("cache_max_entries", Json.ofUInt64 s.cacheMaxEntries)]

/-! ### Environment variables -/

/-- A word with more digits after it; the first digit that does not fit is reported. -/
def appendDigits : Nat → List Char → Except ValueFault UInt64
  | n, [] => .ok (UInt64.ofNat n)
  | n, c :: cs =>
    if !c.isDigit then .error .invalidDigit
    else
      let n := n * 10 + (c.toNat - '0'.toNat)
      if n < UInt64.size then appendDigits n cs else .error .numberTooLarge

/-- The count that a text is: digits, perhaps after a plus sign. -/
def countOfText (text : String) : Except ValueFault UInt64 :=
  match text.toList with
  | [] => .error .emptyNumber
  | '+' :: c :: cs => appendDigits 0 (c :: cs)
  | cs => appendDigits 0 cs

/-- The truth value that a text is. -/
def truthOfText (text : String) : Except ValueFault Bool :=
  if text = "true" then .ok true
  else if text = "false" then .ok false
  else .error .notTruthValue

/-- The dialect that a text names. -/
def dialectOfText (text : String) : Except ValueFault Dialect :=
  match Dialect.ofToken? text with
  | some d => .ok d
  | none => .error (.unknownDialect text)

/-- The value of a variable, or the default where it is not set. -/
def ofVariable {α : Type} (lookup : String → Option String) (name : String) (default : α)
    (read : String → Except ValueFault α) : Except SettingsError α :=
  match lookup name with
  | none => .ok default
  | some value => (read value).mapError (.unreadableVariable name value)

/-- The settings of environment variables. -/
def ofVariables (lookup : String → Option String) : Except SettingsError Settings := do
  let defaultPageSize ← ofVariable lookup "QRC_DEFAULT_PAGE_SIZE" 20 countOfText
  let maxPageSize ← ofVariable lookup "QRC_MAX_PAGE_SIZE" 500 countOfText
  let dialect ← ofVariable lookup "QRC_DIALECT" .mysql dialectOfText
  let cacheEnabled ← ofVariable lookup "QRC_CACHE_ENABLED" true truthOfText
  let cacheMaxEntries ← ofVariable lookup "QRC_CACHE_MAX_ENTRIES" 256 countOfText
  checked { defaultPageSize, maxPageSize, dialect, cacheEnabled, cacheMaxEntries }

end Settings

end CriteriaQuery
