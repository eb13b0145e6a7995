import CriteriaQuery.Operator

/-!
# LIKE patterns

A pattern is matched against a whole text: `%` stands for any characters, `_` for one, and
the escape character makes the next character stand for itself. Escaping a literal makes a
pattern that matches the literal alone, which an anchor then opens at one end or both.

## Implementation notes

Matching goes through the pattern once and keeps, for every split of the text, whether the
pattern so far matches the part before the split. The work is the product of the lengths.
-/

namespace CriteriaQuery

/-- An element of a pattern. -/
inductive LikeToken
  | literal (c : Char)
  | anyOne
  | anyMany
deriving DecidableEq

namespace Like

/-- The elements of a pattern; an escape character at the very end stands for itself. -/
def tokens (escape : Char) : List Char → List LikeToken
  | [] => []
  | [c] =>
    if c = escape then [.literal escape]
    else if c = '%' then [.anyMany]
    else if c = '_' then [.anyOne]
    else [.literal c]
  | c :: d :: rest =>
    if c = escape then .literal d :: tokens escape rest
    else if c = '%' then .anyMany :: tokens escape (d :: rest)
    else if c = '_' then .anyOne :: tokens escape (d :: rest)
    else .literal c :: tokens escape (d :: rest)

/-- From each split on, whether it or an earlier one is reached. -/
def reachedOnwards (before : Bool) : List Bool → List Bool
  | [] => []
  | b :: bs => (before || b) :: reachedOnwards (before || b) bs

/-- The splits reached after one more element. -/
def advance (text : List Char) (reached : List Bool) : LikeToken → List Bool
  | .anyMany => reachedOnwards false reached
  | .anyOne => false :: (reached.zip text).map Prod.fst
  | .literal c => false :: (reached.zip text).map fun e => e.1 && e.2 == c

/-- The splits reached before any element: the one at the start. -/
def start (text : List Char) : List Bool := true :: text.map fun _ => false

/-- Whether the elements match the whole text. -/
def matchesTokens (text : List Char) (elements : List LikeToken) : Bool :=
  (elements.foldl (advance text) (start text)).getLastD false

/-- Whether a pattern matches a text. -/
def isMatch (text pattern : String) (escape : Char) : Bool :=
  matchesTokens text.toList (tokens escape pattern.toList)

/-- Characters with the escape character before each special one. -/
def escapeChars (escape : Char) (cs : List Char) : List Char :=
  cs.flatMap fun c => if c = escape ∨ c = '%' ∨ c = '_' then [escape, c] else [c]

/-- The pattern that stands for a literal. -/
def escaped (escape : Char) (literal : String) : String :=
  String.ofList (escapeChars escape literal.toList)

end Like

/-- The pattern that an anchor makes of an escaped literal. -/
def Anchor.wrap : Anchor → String → String
  | .start, escaped => escaped ++ "%"
  | .finish, escaped => "%" ++ escaped
  | .anywhere, escaped => "%" ++ escaped ++ "%"

end CriteriaQuery
