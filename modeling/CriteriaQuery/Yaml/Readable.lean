import CriteriaQuery.Readable
import CriteriaQuery.Yaml.Node

/-!
# Reading YAML values

How YAML nodes are read as texts, counts, lists and records. Every scalar is a text, however
it is written. Truth values and counts are plain scalars, or literal blocks with the tag of
their type. An empty plain scalar is an empty list, map or record as well. A name out of a
choice is a scalar's text, or the name of the local tag of a scalar without a value.

References are followed wherever a value is read; a member of a record that nothing asks for
is not read. The limit for a whole text is a hundred references for each event, where an event
is a scalar, a reference, or a bound of a collection.
-/

namespace CriteriaQuery.Yaml

/-- A node of a document, whose references mean nodes of the document. -/
structure Value where
  /-- The anchored nodes of the document with their numbers, the last first. -/
  anchored : List (Nat × Node)
  node : Node
deriving Inhabited

namespace Value

/-- The node that a reference means; every other node itself. -/
def resolved (v : Value) : Reading Node :=
  match v.node with
  | .reference n => do
    Reading.follow
    liftM (v.anchored.lookup n)
  | node => pure node

/-- Another node of the document. -/
def within (v : Value) (node : Node) : Value := { v with node }

/-- The text of a scalar. -/
def text? (v : Value) : Reading String := do
  match ← v.resolved with
  | .scalar _ _ text _ => return text
  | _ => failure

/-- The text of a scalar that may be read as a value of the type that has a tag. -/
def literal? (tag : String) (v : Value) : Reading String := do
  match ← v.resolved with
  | .scalar _ _ text .plain => return text
  | .scalar _ (some given) text .literal => if given = .ofString tag then return text else failure
  | _ => failure

/-- The truth value of a word. -/
def truthOfWord? (word : String) : Option Bool :=
  if ["true", "True", "TRUE"].contains word then some true
  else if ["false", "False", "FALSE"].contains word then some false
  else none

/-- The truth value that a scalar is. -/
def truth? (v : Value) : Reading Bool := do
  truthOfWord? (← v.literal? "tag:yaml.org,2002:bool")

/-- The number that digits of a base stand for, if there are digits. -/
def digitsNumber? (base : Nat) (cs : List Char) : Option Nat :=
  if cs.isEmpty then none
  else cs.foldlM (fun n c =>
    match Json.hexDigit? c with
    | some d => if d < base then some (n * base + d) else none
    | none => none) 0

/-- A number that fits an unsigned word. -/
def fitting? (n : Nat) : Option UInt64 := if n < UInt64.size then some (UInt64.ofNat n) else none

/-- The count that characters without a sign stand for, in one of four bases; a decimal count
of several digits does not start with a zero. -/
def countOfChars? : List Char → Option UInt64
  | '0' :: 'x' :: rest => digitsNumber? 16 rest >>= fitting?
  | '0' :: 'o' :: rest => digitsNumber? 8 rest >>= fitting?
  | '0' :: 'b' :: rest => digitsNumber? 2 rest >>= fitting?
  | '0' :: _ :: _ => none
  | cs => digitsNumber? 10 cs >>= fitting?

/-- The count that a scalar is. -/
def count? (v : Value) : Reading UInt64 := do
  match (← v.literal? "tag:yaml.org,2002:int").toList with
  | '+' :: cs => countOfChars? cs
  | cs => countOfChars? cs

/-- Whether a scalar has no value. -/
def isNull (text : String) (style : ScalarStyle) : Bool :=
  style = .plain && ["", "~", "null", "Null", "NULL"].contains text

/-- The name out of a choice that a scalar is. -/
def choice? (v : Value) : Reading String := do
  match ← v.resolved with
  | .scalar _ tag text style =>
    match tag.bind Tag.localName? with
    | some name => if isNull text style then return name else failure
    | none => return text
  | _ => failure

/-- The items of a sequence. -/
def items? (v : Value) : Reading (List Value) := do
  match ← v.resolved with
  | .sequence _ items => return items.map v.within
  | .scalar _ _ "" .plain => return []
  | _ => failure

/-- The entries of a mapping whose keys are texts. -/
def entries? (v : Value) : Reading (List (String × Value)) := do
  match ← v.resolved with
  | .mapping _ entries =>
    entries.mapM fun e => (fun key => (key, v.within e.2)) <$> (v.within e.1).text?
  | .scalar _ _ "" .plain => return []
  | _ => failure

/-- The members of a record, of which none that has a known key is repeated. -/
def record? (keys : List String) (v : Value) : Reading (List (String × Value)) := do
  let members ← v.entries?
  let known := (members.map Prod.fst).filter keys.contains
  if known.Nodup then return members else failure

end Value

instance : Readable Value where
  text? := Value.text?
  truth? := Value.truth?
  count? := Value.count?
  choice? := Value.choice?
  items? := Value.items?
  entries? := Value.entries?
  record? := Value.record?

/-- What a text is read as. -/
def readAs? {α : Type} (read : Value → Reading α) (text : String) : Option α := do
  let n ← Node.read? text
  (read ⟨n.anchored [], n⟩).value? (100 * n.events)

end CriteriaQuery.Yaml
