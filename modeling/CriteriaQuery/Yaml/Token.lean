import CriteriaQuery.Yaml.Scalar
import CriteriaQuery.Yaml.Tag

/-!
# YAML tokens

The tokens of a YAML text. Where collections written by indentation start and end, and which
nodes are keys, is made explicit: a token for each start, each end and each key stands among
the tokens that are written.

## Implementation notes

A key that is written without an indicator is known only at the colon after it. A node that
may turn out to be one is remembered with the count of the tokens before it, one node for
each level of brackets, and the tokens of the key are inserted there. Such a key stands on
one line and takes at most 1024 octets; where a line of a mapping can only start with
a key, its absence makes the text unreadable.
-/

namespace CriteriaQuery.Yaml

/-- How a scalar is written, as far as it matters for what the scalar can be read as. -/
inductive ScalarStyle
  | plain
  | literal
  | other
deriving DecidableEq

/-- A token. -/
inductive Token
  | version (major minor : Nat)
  | tagHandle (handle : String) (start : Tag)
  | documentStart
  | documentEnd
  | blockSequence
  | blockMapping
  | blockEnd
  | flowSequence
  | flowSequenceEnd
  | flowMapping
  | flowMappingEnd
  | blockEntry
  | flowEntry
  | key
  | value
  | reference (anchor : String)
  | anchor (name : String)
  | tag (handle : String) (suffix : Tag)
  | scalar (text : String) (style : ScalarStyle)
deriving DecidableEq

/-- A place where a key may start. -/
structure PossibleKey where
  required : Bool
  /-- The count of the tokens before the key. -/
  position : Nat
  offset : Nat
  line : Nat
  column : Nat

/-- What has been read of a text: the tokens, the latest first, and what is open. -/
structure Scanner where
  source : Source
  tokens : List Token := []
  /-- The indentations of the open block collections, the innermost first. -/
  indents : List Nat := []
  /-- The key that may have started on the innermost level of brackets. -/
  key : Option PossibleKey := none
  /-- The same for the levels around it, of which there are as many as open brackets. -/
  outerKeys : List (Option PossibleKey) := []
  keyAllowed : Bool := true

namespace Scanner

/-- The indentation of the innermost block collection; `-1` when there is none. -/
def indent (s : Scanner) : Int :=
  match s.indents with
  | [] => -1
  | i :: _ => i

/-- Whether the text stands between brackets. -/
def inFlow (s : Scanner) : Bool := !s.outerKeys.isEmpty

/-- Adds a token. -/
def push (t : Token) (s : Scanner) : Scanner := { s with tokens := t :: s.tokens }

/-- Goes on with another source. -/
def resume (source : Source) (s : Scanner) : Scanner := { s with source }

/-- Adds a token that takes `n` characters. -/
def take (n : Nat) (t : Token) (s : Scanner) : Scanner := (s.resume (s.source.skip n)).push t

/-- Inserts tokens after the first `position` ones. -/
def insert (position : Nat) (ts : List Token) (s : Scanner) : Scanner :=
  let later := s.tokens.length - position
  { s with tokens := s.tokens.take later ++ ts.reverse ++ s.tokens.drop later }

/-- Opens a block collection at a column that lies right of the indentation. -/
def openBlock (column : Nat) (start : Token) (s : Scanner) : Scanner :=
  if !s.inFlow && s.indent < column then { s.push start with indents := column :: s.indents }
  else s

/-- Closes the block collections that are indented more than a column. -/
def closeBlocks (column : Int) (s : Scanner) : Scanner :=
  if s.inFlow then s
  else
    let closed := s.indents.takeWhile fun (i : Nat) => decide (column < (i : Int))
    { s with
      tokens := closed.map (fun _ => .blockEnd) ++ s.tokens
      indents := s.indents.drop closed.length }

/-- Gives up the possible key, unless it has to be there. -/
def dropKey? (s : Scanner) : Option Scanner :=
  if s.key.any (·.required) then none else some { s with key := none }

/-- The key that may start here; one has to when the line starts at the indentation. -/
def keyHere (s : Scanner) : PossibleKey where
  required := !s.inFlow && s.indent = s.source.column
  position := s.tokens.length
  offset := s.source.offset
  line := s.source.line
  column := s.source.column

/-- Remembers that a key may start here. -/
def saveKey? (s : Scanner) : Option Scanner :=
  if s.keyAllowed then (dropKey? s).map fun s => { s with key := some s.keyHere } else some s

/-- Whether a key that started there must have ended. -/
def isStale (s : Scanner) (k : PossibleKey) : Bool :=
  k.line < s.source.line || k.offset + 1024 < s.source.offset

/-- A possible key, given up when it must have ended; `none` when it has to be there. -/
def refresh? (s : Scanner) : Option PossibleKey → Option (Option PossibleKey)
  | none => some none
  | some k => if s.isStale k then if k.required then none else some none else some (some k)

/-- Gives up the possible keys that must have ended. -/
def dropStale? (s : Scanner) : Option Scanner := do
  let key ← s.refresh? s.key
  let outerKeys ← s.outerKeys.mapM s.refresh?
  return { s with key, outerKeys }

/-- Leaves out blanks, comments and line breaks before the next token. Tabs are blanks only
where no key may start. -/
def skipGap (s : Scanner) : Scanner :=
  let tabs := s.inFlow || !s.keyAllowed
  let source := s.source.skipOrderMark.skipComment fun c => c = ' ' || tabs && c = '\t'
  match _h : source.rest with
  | c :: _ =>
    if isBreak c then
      skipGap { s with
        source := source.skipBreak
        keyAllowed := s.keyAllowed || !s.inFlow }
    else s.resume source
  | [] => s.resume source
termination_by s.source.rest.length
decreasing_by
  have := Source.length_skipBreak_lt fun h => List.cons_ne_nil _ _ (_h.symm.trans h)
  exact Nat.lt_of_lt_of_le this
    (Nat.le_trans Source.length_skipComment_le Source.length_skipOrderMark_le)

/-! ### Directives, anchors and tags -/

/-- A number of one to nine digits. -/
def number? (s : Source) : Option (Nat × Source) :=
  let ds := s.rest.takeWhile Char.isDigit
  if ds.isEmpty || 9 < ds.length then none
  else some (Json.ofDigits (ds.map Json.digitOf), s.skip ds.length)

/-- A tag handle: an exclamation mark, perhaps a word and a second exclamation mark. -/
def handle? (s : Source) : Option (String × Source) :=
  match s.rest with
  | '!' :: rest =>
    let word := rest.takeWhile isWordChar
    let close := (rest.drop word.length).takeWhile (· = '!') |>.take 1
    some (String.ofList ('!' :: word ++ close), s.skip (1 + word.length + close.length))
  | _ => none

/-- Whether a handle is closed by a second exclamation mark. -/
def isClosed (handle : String) : Bool := 1 < handle.length && handle.toList.getLast? = some '!'

/-- A version directive's value. -/
def version? (s : Source) : Option (Token × Source) := do
  let (major, s) ← number? (s.skipWhile isBlank)
  if s.peek? = some '.' then
    let (minor, s) ← number? (s.skip 1)
    return (.version major minor, s)
  else none

/-- A tag directive's value. -/
def tagHandle? (s : Source) : Option (Token × Source) := do
  let (handle, s) ← handle? (s.skipWhile isBlank)
  if !(handle = "!" || isClosed handle) || !s.peek?.any isBlank then none
  else
    let (start, s) ← Tag.read? true (s.skipWhile isBlank)
    if start.isEmpty || !endsWord s.rest then none
    else return (.tagHandle handle (.ofOctets start), s)

/-- A directive with its line. -/
def directive? (s : Source) : Option (Token × Source) := do
  let s := s.skip 1
  let name := s.rest.takeWhile isWordChar
  let s := s.skip name.length
  if !endsWord s.rest then none
  else
    let (token, s) ← match String.ofList name with
      | "YAML" => version? s
      | "TAG" => tagHandle? s
      | _ => none
    return (token, ← s.nextLine?)

/-- The name of an anchor or of a reference to one, after its indicator. -/
def anchorName? (s : Source) : Option (String × Source) :=
  let s := s.skip 1
  let name := s.rest.takeWhile isWordChar
  let s := s.skip name.length
  if !name.isEmpty && (endsWord s.rest || s.peek?.any "?:,]\x7d%@\x60".toList.contains) then
    some (String.ofList name, s)
  else none

/-- A tag between angle brackets. -/
def verbatimTag? (s : Source) : Option (Token × Source) := do
  let (suffix, s) ← Tag.read? true (s.skip 2)
  if suffix.isEmpty || s.peek? ≠ some '>' then none
  else return (.tag "" (.ofOctets suffix), s.skip 1)

/-- A tag by a handle, or by the lone exclamation mark. -/
def shorthandTag? (s : Source) : Option (Token × Source) := do
  let (handle, s) ← handle? s
  let (suffix, s) ← Tag.read? false s
  if isClosed handle then
    if suffix.isEmpty then none else return (.tag handle (.ofOctets suffix), s)
  else
    let suffix := Tag.ofOctets (Tag.octetsOf (handle.toList.drop 1) ++ suffix)
    return (if suffix.isEmpty then .tag "" .localMark else .tag "!" suffix, s)

/-- A tag with what must come after it. -/
def tag? (inFlow : Bool) (s : Source) : Option (Token × Source) := do
  let (token, s) ← match s.rest with
    | _ :: '<' :: _ => verbatimTag? s
    | _ => shorthandTag? s
  if endsWord s.rest || inFlow && s.peek? = some ',' then return (token, s) else none

/-! ### One token after the other -/

/-- A directive or a document's bound, which ends all block collections. -/
def bound? (read : Source → Option (Token × Source)) (s : Scanner) : Option Scanner := do
  let s ← dropKey? (s.closeBlocks (-1))
  let (token, source) ← read s.source
  return (({ s with keyAllowed := false }).resume source).push token

/-- A bound of three characters. -/
def mark (token : Token) (s : Source) : Option (Token × Source) := some (token, s.skip 3)

/-- An opening bracket. -/
def openFlow? (token : Token) (s : Scanner) : Option Scanner := do
  let s ← saveKey? s
  return { s.take 1 token with
    key := none
    outerKeys := s.key :: s.outerKeys
    keyAllowed := true }

/-- A closing bracket. -/
def closeFlow? (token : Token) (s : Scanner) : Option Scanner := do
  let s ← dropKey? s
  let s := match s.outerKeys with
    | [] => s
    | key :: rest => { s with key, outerKeys := rest }
  return { s.take 1 token with keyAllowed := false }

/-- A comma. -/
def flowEntry? (s : Scanner) : Option Scanner := do
  let s ← dropKey? s
  return { s.take 1 .flowEntry with keyAllowed := true }

/-- An indicator of an item or of a key, which may open a block collection. -/
def blockIndicator? (start token : Token) (allowed : Bool) (s : Scanner) : Option Scanner := do
  if !s.inFlow && !s.keyAllowed then none
  else
    let s ← dropKey? (s.openBlock s.source.column start)
    return { s.take 1 token with keyAllowed := allowed }

/-- A colon: either the possible key is one, or the value of a key with an indicator starts. -/
def value? (s : Scanner) : Option Scanner :=
  match s.key with
  | some k =>
    let opens := !s.inFlow && s.indent < k.column
    let s := s.insert k.position (if opens then [.blockMapping, .key] else [.key])
    let s := if opens then { s with indents := k.column :: s.indents } else s
    some { s.take 1 .value with key := none, keyAllowed := false }
  | none => blockIndicator? .blockMapping .value (!s.inFlow) s

/-- A node's property or a scalar on one line, which may be the start of a key. -/
def node? (read : Source → Option (Token × Source)) (s : Scanner) : Option Scanner := do
  let s ← saveKey? s
  let (token, source) ← read s.source
  return (({ s with keyAllowed := false }).resume source).push token

/-- A block scalar, after which a key may start. -/
def blockScalar? (folded : Bool) (s : Scanner) : Option Scanner := do
  let s ← dropKey? s
  let (text, source) ← block? folded s.indent (s.source.skip 1)
  return (({ s with keyAllowed := true }).resume source).push
    (.scalar text (if folded then .other else .literal))

/-- A quoted scalar. -/
def quotedToken? (quote : Char) (s : Source) : Option (Token × Source) :=
  (quoted? quote s).map fun (text, s) => (.scalar text .other, s)

/-- A plain scalar; after a line break a key may start. -/
def plainScalar? (s : Scanner) : Option Scanner := do
  let s ← saveKey? s
  let (text, ended, source) ← plain? s.inFlow (s.indent + 1).toNat s.source
  return (({ s with keyAllowed := ended }).resume source).push (.scalar text .plain)

/-- Whether a plain scalar can start with a character. -/
def startsPlain (inFlow : Bool) (c : Char) (rest : List Char) : Bool :=
  if c = '-' then !rest.head?.any isBlank
  else if c = '?' || c = ':' then !inFlow && !endsWord rest
  else !(isBlank c || isBreak c || ",[]\x7b\x7d#&*!|>'\"%@\x60".toList.contains c)

/-- The next token, whose first character is `c`. -/
def nextToken? (c : Char) (rest : List Char) (s : Scanner) : Option Scanner :=
  if s.source.column = 0 && c = '%' then s.bound? directive?
  else if s.source.column = 0 && isMark '-' (c :: rest) then s.bound? (mark .documentStart)
  else if s.source.column = 0 && isMark '.' (c :: rest) then s.bound? (mark .documentEnd)
  else if c = '[' then s.openFlow? .flowSequence
  else if c = '\x7b' then s.openFlow? .flowMapping
  else if c = ']' then s.closeFlow? .flowSequenceEnd
  else if c = '\x7d' then s.closeFlow? .flowMappingEnd
  else if c = ',' then s.flowEntry?
  else if c = '-' && endsWord rest then s.blockIndicator? .blockSequence .blockEntry true
  else if c = '?' && (s.inFlow || endsWord rest) then
    s.blockIndicator? .blockMapping .key (!s.inFlow)
  else if c = ':' && (s.inFlow || endsWord rest) then s.value?
  else if c = '*' then
    s.node? fun source => (anchorName? source).map fun (name, source) => (.reference name, source)
  else if c = '&' then
    s.node? fun source => (anchorName? source).map fun (name, source) => (.anchor name, source)
  else if c = '!' then s.node? (tag? s.inFlow)
  else if c = '|' && !s.inFlow then s.blockScalar? false
  else if c = '>' && !s.inFlow then s.blockScalar? true
  else if c = '\'' || c = '"' then s.node? (quotedToken? c)
  else if startsPlain s.inFlow c rest then s.plainScalar?
  else none

/-- All tokens from here on. -/
def run? : Nat → Scanner → Option (List Token)
  | 0, _ => none
  | fuel + 1, s => do
    let s ← (skipGap s).dropStale?
    let s := s.closeBlocks s.source.column
    match s.source.rest with
    | [] =>
      let s ← dropKey? (s.closeBlocks (-1))
      return s.tokens.reverse
    | c :: rest => run? fuel (← s.nextToken? c rest)

end Scanner

/-- The tokens of a text. -/
def Token.read? (text : String) : Option (List Token) :=
  let cs := text.toList
  if cs.all isAllowed then Scanner.run? (cs.length + 1) { source := { rest := cs } } else none

end CriteriaQuery.Yaml
