import CriteriaQuery.Yaml.Token

/-!
# YAML nodes

The tree of nodes that a YAML text is: scalars, sequences, mappings, and references to
anchored nodes. A text holds at most one document; one without a document is an empty
scalar.

An anchor counts by its number, the count of different names anchored before it, and a
reference means the last node in document order with the number that its name has there.

## Implementation notes

Readers take the tokens that are left and the names anchored so far. They take a fuel
argument; every call but those at the ends of empty nodes follows a token taken, so twice
the count of tokens and some more is enough.
-/

namespace CriteriaQuery.Yaml

/-- A node. -/
inductive Node
  | scalar (anchor : Option Nat) (tag : Option Tag) (text : String) (style : ScalarStyle)
  | sequence (anchor : Option Nat) (items : List Node)
  | mapping (anchor : Option Nat) (entries : List (Node × Node))
  | reference (anchor : Nat)
deriving Inhabited

namespace Node

/-- The number of the anchor of a node. -/
def anchor? : Node → Option Nat
  | .scalar anchor _ _ _ => anchor
  | .sequence anchor _ => anchor
  | .mapping anchor _ => anchor
  | .reference _ => none

/-- Puts a node before others under the number of its anchor, if it has one. -/
def record (n : Node) (found : List (Nat × Node)) : List (Nat × Node) :=
  match n.anchor? with
  | some number => (number, n) :: found
  | none => found

mutual

/-- The anchored nodes of a node in front of those found before, the last in document order
first. -/
def anchored (found : List (Nat × Node)) : Node → List (Nat × Node)
  | .scalar anchor tag text style => record (.scalar anchor tag text style) found
  | .sequence anchor items => anchoredItems (record (.sequence anchor items) found) items
  | .mapping anchor entries => anchoredEntries (record (.mapping anchor entries) found) entries
  | .reference _ => found

/-- The same for the nodes of a list. -/
def anchoredItems (found : List (Nat × Node)) : List Node → List (Nat × Node)
  | [] => found
  | n :: rest => anchoredItems (anchored found n) rest

/-- The same for the nodes of entries. -/
def anchoredEntries (found : List (Nat × Node)) : List (Node × Node) → List (Nat × Node)
  | [] => found
  | (k, v) :: rest => anchoredEntries (anchored (anchored found k) v) rest

end

mutual

/-- The count of the events of a node: one for a scalar and for a reference, and two for the
bounds of a collection. -/
def events : Node → Nat
  | .scalar _ _ _ _ => 1
  | .sequence _ items => 2 + itemEvents items
  | .mapping _ entries => 2 + entryEvents entries
  | .reference _ => 1

/-- The count of the events of a list's nodes. -/
def itemEvents : List Node → Nat
  | [] => 0
  | n :: rest => events n + itemEvents rest

/-- The count of the events of entries' nodes. -/
def entryEvents : List (Node × Node) → Nat
  | [] => 0
  | (k, v) :: rest => events k + events v + entryEvents rest

end

/-- The empty scalar. -/
def empty : Node := .scalar none none "" .plain

end Node

/-- The tokens that are left, the names anchored so far with their numbers, and tag handles. -/
structure Composer where
  tokens : List Token
  anchors : List (String × Nat) := []
  handles : List (String × Tag)

/-- The anchor and the tag of a node. -/
structure NodeProperties where
  anchor : Option String := none
  tag : Option Tag := none

namespace Composer

/-- The next token. -/
def peek? (c : Composer) : Option Token := c.tokens.head?

/-- Whether the next token is one of a list. -/
def isAt (ts : List Token) (c : Composer) : Bool := c.peek?.any ts.contains

/-- Leaves out the next token. -/
def next (c : Composer) : Composer := { c with tokens := c.tokens.drop 1 }

/-- The whole tag of a handle and a suffix. -/
def tag? (c : Composer) (handle : String) (suffix : Tag) : Option Tag :=
  if handle.isEmpty then some suffix else (c.handles.lookup handle).map (· ++ suffix)

/-- The anchor and the tag before a node, in either order. -/
def properties? (c : Composer) : Option (NodeProperties × Composer) :=
  match c.tokens with
  | .anchor name :: .tag handle suffix :: rest | .tag handle suffix :: .anchor name :: rest =>
    (c.tag? handle suffix).map fun tag => (⟨some name, some tag⟩, { c with tokens := rest })
  | .anchor name :: rest => some ({ anchor := some name }, { c with tokens := rest })
  | .tag handle suffix :: rest =>
    (c.tag? handle suffix).map fun tag => ({ tag := some tag }, { c with tokens := rest })
  | _ => some ({}, c)

/-- The number of a node's anchor, which is recorded when the node begins. -/
def number (p : NodeProperties) (c : Composer) : Option Nat × Composer :=
  match p.anchor with
  | none => (none, c)
  | some name =>
    let n := c.anchors.length
    (some n, { c with anchors := (name, n) :: c.anchors.filter fun a => a.1 ≠ name })

mutual

/-- The next node. Block collections are allowed outside of brackets, a sequence without
indentation of its own only where `indentless` says so. -/
def node? : Nat → (block indentless : Bool) → Composer → Option (Node × Composer)
  | 0, _, _, _ => none
  | fuel + 1, block, indentless, c =>
    match c.peek? with
    | some (.reference name) => (c.anchors.lookup name).map fun n => (.reference n, c.next)
    | _ => do
      let (p, c) ← c.properties?
      let (anchor, inner) := c.number p
      match c.peek? with
      | some .blockEntry =>
        if indentless then
          let (items, c) ← indentlessItems? fuel inner
          return (.sequence anchor items, c)
        else emptyNode? p anchor inner
      | some (.scalar text style) => return (.scalar anchor p.tag text style, inner.next)
      | some .flowSequence =>
        let (items, c) ← flowItems? fuel true inner.next
        return (.sequence anchor items, c)
      | some .flowMapping =>
        let (entries, c) ← flowEntries? fuel true inner.next
        return (.mapping anchor entries, c)
      | some .blockSequence =>
        if block then
          let (items, c) ← blockItems? fuel inner.next
          return (.sequence anchor items, c)
        else emptyNode? p anchor inner
      | some .blockMapping =>
        if block then
          let (entries, c) ← blockEntries? fuel inner.next
          return (.mapping anchor entries, c)
        else emptyNode? p anchor inner
      | _ => emptyNode? p anchor inner

/-- An empty scalar, which has to have an anchor or a tag. -/
def emptyNode? (p : NodeProperties) (anchor : Option Nat) (c : Composer) :
    Option (Node × Composer) :=
  if p.anchor.isSome || p.tag.isSome then some (.scalar anchor p.tag "" .plain, c) else none

/-- The next node of a block collection, empty before one of the tokens `ends`. -/
def blockNode? : Nat → (ends : List Token) → (indentless : Bool) → Composer →
    Option (Node × Composer)
  | 0, _, _, _ => none
  | fuel + 1, ends, indentless, c =>
    if c.isAt ends then some (.empty, c) else node? fuel true indentless c

/-- The items of a block sequence. -/
def blockItems? : Nat → Composer → Option (List Node × Composer)
  | 0, _ => none
  | fuel + 1, c =>
    if c.isAt [.blockEntry] then do
      let (item, c) ← blockNode? fuel [.blockEntry, .blockEnd] false c.next
      let (items, c) ← blockItems? fuel c
      return (item :: items, c)
    else if c.isAt [.blockEnd] then some ([], c.next)
    else none

/-- The items of a sequence at the indentation of the mapping around it. -/
def indentlessItems? : Nat → Composer → Option (List Node × Composer)
  | 0, _ => none
  | fuel + 1, c =>
    if c.isAt [.blockEntry] then do
      let (item, c) ← blockNode? fuel [.blockEntry, .key, .value, .blockEnd] false c.next
      let (items, c) ← indentlessItems? fuel c
      return (item :: items, c)
    else some ([], c)

/-- The entries of a block mapping. -/
def blockEntries? : Nat → Composer → Option (List (Node × Node) × Composer)
  | 0, _ => none
  | fuel + 1, c =>
    if c.isAt [.key] then do
      let (key, c) ← blockNode? fuel [.key, .value, .blockEnd] true c.next
      let (value, c) ←
        if c.isAt [.value] then blockNode? fuel [.key, .value, .blockEnd] true c.next
        else some (.empty, c)
      let (entries, c) ← blockEntries? fuel c
      return ((key, value) :: entries, c)
    else if c.isAt [.blockEnd] then some ([], c.next)
    else none

/-- The next node between brackets, empty before one of the tokens `ends`. -/
def flowNode? : Nat → (ends : List Token) → Composer → Option (Node × Composer)
  | 0, _, _ => none
  | fuel + 1, ends, c => if c.isAt ends then some (.empty, c) else node? fuel false false c

/-- The entry of a sequence that is a mapping of one entry, after its key indicator. -/
def flowPair? : Nat → Composer → Option (Node × Composer)
  | 0, _ => none
  | fuel + 1, c => do
    let (key, c) ←
      if c.isAt [.value, .flowEntry, .flowSequenceEnd] then some (.empty, c.next)
      else node? fuel false false c
    let (value, c) ←
      if c.isAt [.value] then flowNode? fuel [.flowEntry, .flowSequenceEnd] c.next
      else some (.empty, c)
    return (.mapping none [(key, value)], c)

/-- The items of a sequence between brackets; the first one needs no comma before it. -/
def flowItems? : Nat → (first : Bool) → Composer → Option (List Node × Composer)
  | 0, _, _ => none
  | fuel + 1, first, c =>
    if c.isAt [.flowSequenceEnd] then some ([], c.next)
    else if !first && !c.isAt [.flowEntry] then none
    else
      let c := if first then c else c.next
      if c.isAt [.flowSequenceEnd] then some ([], c.next)
      else do
        let (item, c) ← if c.isAt [.key] then flowPair? fuel c.next else node? fuel false false c
        let (items, c) ← flowItems? fuel false c
        return (item :: items, c)

/-- The entries of a mapping between brackets; the first one needs no comma before it. -/
def flowEntries? : Nat → (first : Bool) → Composer → Option (List (Node × Node) × Composer)
  | 0, _, _ => none
  | fuel + 1, first, c =>
    if c.isAt [.flowMappingEnd] then some ([], c.next)
    else if !first && !c.isAt [.flowEntry] then none
    else
      let c := if first then c else c.next
      if c.isAt [.flowMappingEnd] then some ([], c.next)
      else do
        let (entry, c) ←
          if c.isAt [.key] then do
            let (key, c) ← flowNode? fuel [.value, .flowEntry, .flowMappingEnd] c.next
            let (value, c) ←
              if c.isAt [.value] then flowNode? fuel [.flowEntry, .flowMappingEnd] c.next
              else some (.empty, c)
            some ((key, value), c)
          else do
            let (key, c) ← node? fuel false false c
            some ((key, .empty), c)
        let (entries, c) ← flowEntries? fuel false c
        return (entry :: entries, c)

end

/-- The tag handles that need no directive. -/
def standardHandles : List (String × Tag) :=
  [("!", .localMark), ("!!", .ofString "tag:yaml.org,2002:")]

/-- The directives of a document: at most one version, which has to be 1.1 or 1.2, and tag
handles, each of them once. -/
def directives? : (versioned : Bool) → List (String × Tag) → List Token →
    Option (List (String × Tag) × List Token)
  | versioned, handles, .version major minor :: rest =>
    if !versioned && major = 1 && (minor = 1 || minor = 2) then directives? true handles rest
    else none
  | versioned, handles, .tagHandle handle start :: rest =>
    if (handles.lookup handle).isSome then none
    else directives? versioned ((handle, start) :: handles) rest
  | _, handles, ts => some (handles, ts)

/-- Whether only ends of documents are left. -/
def isOver (ts : List Token) : Bool := ts.all (· = .documentEnd)

/-- The node of a document after its start. -/
def content? (handles : List (String × Tag)) (ts : List Token) : Option Node := do
  let c : Composer := { tokens := ts, handles := handles ++ standardHandles }
  let (n, c) ← node? (4 * ts.length + 4) true false c
  if isOver c.tokens then return n else none

/-- The node of a document that starts with a mark; without content it is an empty scalar. -/
def marked? (ts : List Token) : Option Node := do
  let (handles, ts) ← directives? false [] ts
  match ts with
  | .documentStart :: rest => if isOver rest then return .empty else content? handles rest
  | _ => none

/-- The node of a whole text. -/
def document? (ts : List Token) : Option Node :=
  match ts with
  | [] => some .empty
  | .version _ _ :: _ | .tagHandle _ _ :: _ | .documentStart :: _ => marked? ts
  | _ => content? [] ts

end Composer

/-- The node that a text is. -/
def Node.read? (text : String) : Option Node := do
  Composer.document? (← Token.read? text)

end CriteriaQuery.Yaml
