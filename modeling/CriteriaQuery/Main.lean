import CriteriaQuery.CommandLine.Run

/-!
# The program

Runs the command line with the files, the standard input and the environment of the system.
-/

open CriteriaQuery.CommandLine

/-- The number of an error of the system, which some operations give with the opposite sign. -/
def errorNumber (n : UInt32) : UInt32 := if n < 0x80000000 then n else 0 - n

/-- The fault that an error of the system means. -/
def faultOf : IO.Error → FileFault
  | .noFileOrDirectory _ _ _ => .missing
  | .permissionDenied _ _ _ => .denied
  | .inappropriateType _ n _ => if errorNumber n = 20 then .notDirectory else .directory
  | .invalidArgument path n details =>
    if errorNumber n = 36 then .nameTooLong
    else .other (toString (IO.Error.invalidArgument path n details))
  | e => .other (toString e)

/-- The text of bytes, if they are one. -/
def textOf (bytes : ByteArray) : Except FileFault String :=
  match String.fromUTF8? bytes with
  | some s => .ok s
  | none => .error .notText

/-- The files, the standard input and the environment of the system. -/
def systemHost : Host IO where
  fileText path := do
    match ← (IO.FS.readBinFile path).toBaseIO with
    | .ok bytes => return textOf bytes
    | .error e => return .error (faultOf e)
  inputText := do
    match ← ((← IO.getStdin).readBinToEnd).toBaseIO with
    | .ok bytes => return textOf bytes
    | .error e => return .error (faultOf e)
  lookUp? name := IO.getEnv name

def main (arguments : List String) : IO UInt32 := do
  let outcome ← run systemHost arguments
  IO.print outcome.output
  IO.eprint outcome.errors
  return outcome.exitCode.toUInt32
