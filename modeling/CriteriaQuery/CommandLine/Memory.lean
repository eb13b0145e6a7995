import CriteriaQuery.CommandLine.Run

/-!
# Surroundings in memory

A tree of files and directories, an environment and an input, in which the command line runs
without a system. A path is walked name by name, from the root if it starts with a slash and
from the working directory otherwise. The first name that cannot be followed is the path's
fault, and what comes after it does not matter.
-/

namespace CriteriaQuery.CommandLine

/-- What a name in a directory stands for. -/
inductive Entry
  | file (text : String)
  /-- The file whose text is the input. -/
  | input
  | directory (entries : List (String × Entry))

namespace Entry

/-- The greatest count of octets of a name. -/
def longestName : Nat := 255

/-- The greatest count of octets of a path. -/
def longestPath : Nat := 4095

/-- Follows a name from a place, which is an entry with the directories around it, the
innermost first. -/
def follow (name : String) : List Entry → Except FileFault (List Entry)
  | directory entries :: around =>
    if name = "" || name = "." then .ok (directory entries :: around)
    else if name = ".." then .ok (if around.isEmpty then [directory entries] else around)
    else if longestName < name.utf8ByteSize then .error .nameTooLong
    else
      match entries.lookup name with
      | some entry => .ok (entry :: directory entries :: around)
      | none => .error .missing
  | _ => .error .notDirectory

/-- Follows names one after the other. -/
def walk : List String → List Entry → Except FileFault (List Entry)
  | [], place => .ok place
  | name :: rest, place => follow name place >>= walk rest

end Entry

/-- Surroundings in memory. -/
structure Memory where
  root : Entry
  /-- The names that lead from the root to the working directory. -/
  workingDirectory : List String
  environment : List (String × String)

namespace Memory

/-- The entry that a path leads to. -/
def entry (m : Memory) (path : String) : Except FileFault Entry := do
  if path = "" then .error .missing
  else if Entry.longestPath < path.utf8ByteSize then .error .nameTooLong
  else
    let start := if path.startsWith "/" then [] else m.workingDirectory
    let place ← Entry.walk (start ++ path.splitOn "/") [m.root]
    return place.headD m.root

/-- Takes all of the input that is left. -/
def takeInput : StateM String String := fun input => (input, "")

/-- The surroundings as operations on the input that is left. -/
def host (m : Memory) : Host (StateM String) where
  fileText path :=
    match m.entry path with
    | .ok (.file text) => return .ok text
    | .ok .input => .ok <$> takeInput
    | .ok (.directory _) => return .error .directory
    | .error fault => return .error fault
  inputText := .ok <$> takeInput
  lookUp? name := return m.environment.lookup name

/-- Runs the command line in the surroundings. -/
def run (m : Memory) (arguments : List String) (input : String) : Outcome :=
  (CommandLine.run m.host arguments input).1

end Memory

end CriteriaQuery.CommandLine
