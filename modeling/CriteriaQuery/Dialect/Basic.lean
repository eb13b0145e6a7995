import CriteriaQuery.Dialect.ReservedWords

/-!
# Dialects

How the two SQL dialects write identifiers. An identifier stands bare when it is plain, that
is letters, digits and underscores and no digit first, and not reserved; PostgreSQL, which
folds bare identifiers to lower case, also quotes upper-case letters. Inside quotes the
quote character is written twice. A qualified identifier is the owner's, a point, and the
column's.
-/

namespace CriteriaQuery

/-- An SQL dialect. -/
inductive Dialect
  | mysql
  | postgres
deriving DecidableEq, Inhabited

namespace Dialect

/-- The name of a dialect. -/
def name : Dialect → String
  | .mysql => "mysql"
  | .postgres => "postgres"

/-- The dialect that a token names, in any letter case. -/
def ofToken? (token : String) : Option Dialect :=
  if token.toLower = "mysql" then some .mysql
  else if token.toLower = "postgres" ∨ token.toLower = "postgresql" then some .postgres
  else none

/-- The character that stands before and after a quoted identifier. -/
def quoteChar : Dialect → Char
  | .mysql => '\x60'
  | .postgres => '"'

/-- The words that a dialect reserves, in upper case. -/
def reservedWords : Dialect → List String
  | .mysql => ReservedWords.mysql
  | .postgres => ReservedWords.postgres

/-- Whether an identifier is a reserved word in some letter case. -/
def isReserved (d : Dialect) (identifier : String) : Bool :=
  d.reservedWords.contains identifier.toUpper

/-- Whether a plain identifier can start with a character. -/
def isPlainStart (c : Char) : Bool := c.isAlpha || c = '_'

/-- Whether a plain identifier can go on with a character. -/
def isPlainRest (c : Char) : Bool := c.isAlphanum || c = '_'

/-- Whether characters make a plain identifier. -/
def isPlain : List Char → Bool
  | [] => false
  | c :: cs => isPlainStart c && cs.all isPlainRest

/-- Whether the dialect folds the letter case of a bare identifier away. -/
def foldsAway (d : Dialect) (identifier : String) : Bool :=
  match d with
  | .mysql => false
  | .postgres => identifier.toList.any Char.isUpper

/-- Whether an identifier has to be quoted to keep its meaning. -/
def needsQuoting (d : Dialect) (identifier : String) : Bool :=
  d.isReserved identifier || !isPlain identifier.toList || d.foldsAway identifier

/-- The characters of an identifier with every quote character written twice. -/
def doubled (quote : Char) (cs : List Char) : List Char :=
  cs.flatMap fun c => if c = quote then [quote, quote] else [c]

/-- An identifier between quotes. -/
def quote (d : Dialect) (identifier : String) : String :=
  String.ofList (d.quoteChar :: doubled d.quoteChar identifier.toList ++ [d.quoteChar])

/-- An identifier as the dialect writes it. -/
def escapeIdentifier (d : Dialect) (identifier : String) : String :=
  if d.needsQuoting identifier then d.quote identifier else identifier

/-- An identifier with its owner, if it has one, as the dialect writes it. -/
def escape (d : Dialect) (identifier : String) (owner : Option String) : String :=
  match owner with
  | some table => d.escapeIdentifier table ++ "." ++ d.escapeIdentifier identifier
  | none => d.escapeIdentifier identifier

theorem escape_some (d : Dialect) (identifier table : String) :
    d.escape identifier (some table) = d.escapeIdentifier table ++ "." ++
      d.escapeIdentifier identifier := rfl

end Dialect

end CriteriaQuery
