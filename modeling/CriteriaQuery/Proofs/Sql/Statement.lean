import CriteriaQuery.Proofs.Sql.Fragment

/-!
# Reading statements

The clauses of a statement are read off its text alone: the columns, the root table, the joins,
the text of the predicate, the sort keys and the page. What is read are the names that the
catalog holds, not the texts that a dialect writes for them.

## Implementation notes

The text is cut at the words that start clauses, which no dialect writes for a name. Before
`WHERE` and after the predicate blanks only keep tokens apart; the predicate keeps its own.
-/

namespace CriteriaQuery

/-- A join as the catalog names it. -/
structure Join where
  kind : JoinKind
  table : String
  left : ColumnRef
  right : ColumnRef
deriving DecidableEq

/-- What a statement asks for. -/
structure Clauses where
  /-- The columns to take; all of them when none is named. -/
  columns : List ColumnRef
  root : String
  joins : List Join
  /-- The text of the predicate. -/
  predicate : String
  order : List (ColumnRef × SortDirection)
  limit : Nat
  offset : Nat
deriving DecidableEq

namespace Scope

/-- The join of a link of the graph. -/
def join (s : Scope) (l : JoinLink) : Except CatalogError Join := do
  let left ← s.registry.resolve (ColumnRef.qualify l.on.fromTable l.on.fromField)
  let right ← s.registry.resolve (ColumnRef.qualify l.on.toTable l.on.toField)
  return ⟨l.kind, l.right.table, left, right⟩

/-- The clauses that a document asks for. -/
def clauses (s : Scope) (doc : Document) : Except CompileError Clauses := do
  let joins ← lift (s.graph.links.mapM s.join)
  let columns ← lift (doc.projection.mapM s.registry.resolve)
  let predicate ← s.compileCriteria Sql.backend doc.criteria
  let keys := (s.sortOutcomes [] doc.sorter).filterMap SortOutcome.kept?
  let window := PageWindow.ofPager doc.pager s.limits
  return {
    columns
    root := s.graph.root.table
    joins
    predicate := predicate.text
    order := keys.map fun k => (k.1.column, k.2)
    limit := window.limit.toNat
    offset := window.offset.toNat }

end Scope

namespace Sql

/-- The name that a token holds, in quotes or bare. -/
def Token.name? : Token → Option String
  | .quoted _ name => some name
  | .word w => some w
  | _ => none

/-- The column of a table and a name. -/
def column? (table name : Token) : Option ColumnRef :=
  match table.name?, name.name? with
  | some table, some name => some ⟨table, name⟩
  | _, _ => none

/-- The number of a word of digits. -/
def number? (w : String) : Option Nat :=
  if w.toList.all Char.isDigit then some (Nat.ofDigitChars 10 w.toList 0) else none

/-- The join kind of the first word of its keyword. -/
def joinKind? : String → Option JoinKind
  | "INNER" => some .inner
  | "LEFT" => some .left
  | _ => none

/-- The direction of a keyword. -/
def direction? : String → Option SortDirection
  | "ASC" => some .ascending
  | "DESC" => some .descending
  | _ => none

/-- Columns with commas between them. -/
def readColumns : List Token → Option (List ColumnRef × List Token)
  | table :: .mark '.' :: name :: .mark ',' :: rest => do
    let column ← column? table name
    let (columns, rest) ← readColumns rest
    return (column :: columns, rest)
  | table :: .mark '.' :: name :: rest => do
    let column ← column? table name
    return ([column], rest)
  | _ => none

/-- Joins up to the end. -/
def readJoins : List Token → Option (List Join)
  | [] => some []
  | .word kind :: .word "JOIN" :: table :: .word "ON" :: leftTable :: .mark '.' :: leftName ::
      .operator "=" :: rightTable :: .mark '.' :: rightName :: rest => do
    let kind ← joinKind? kind
    let table ← table.name?
    let left ← column? leftTable leftName
    let right ← column? rightTable rightName
    let joins ← readJoins rest
    return ⟨kind, table, left, right⟩ :: joins
  | _ => none

/-- The root table and the joins. -/
def readSource : List Token → Option (String × List Join)
  | .word "FROM" :: table :: rest => do
    let root ← table.name?
    let joins ← readJoins rest
    return (root, joins)
  | _ => none

/-- The columns to take. -/
def readProjection : List Token → Option (List ColumnRef × List Token)
  | .mark '*' :: rest => some ([], rest)
  | ts => readColumns ts

/-- All that stands before the predicate. -/
def readHead : List Token → Option (List ColumnRef × String × List Join)
  | .word "SELECT" :: rest => do
    let (columns, rest) ← readProjection rest
    let source ← readSource rest
    return (columns, source)
  | _ => none

/-- Sort keys with commas between them. -/
def readKeys : List Token → Option (List (ColumnRef × SortDirection) × List Token)
  | table :: .mark '.' :: name :: .word direction :: .mark ',' :: rest => do
    let column ← column? table name
    let direction ← direction? direction
    let (keys, rest) ← readKeys rest
    return ((column, direction) :: keys, rest)
  | table :: .mark '.' :: name :: .word direction :: rest => do
    let column ← column? table name
    let direction ← direction? direction
    return ([(column, direction)], rest)
  | _ => none

def readWindow : List Token → Option (Nat × Nat)
  | [.word "LIMIT", .word limit, .word "OFFSET", .word offset] => do
    let limit ← number? limit
    let offset ← number? offset
    return (limit, offset)
  | _ => none

/-- All that stands after the predicate. -/
def readFoot : List Token → Option (List (ColumnRef × SortDirection) × Nat × Nat)
  | .word "ORDER" :: .word "BY" :: rest => do
    let (keys, rest) ← readKeys rest
    let window ← readWindow rest
    return (keys, window)
  | rest => do
    let window ← readWindow rest
    return ([], window)

/-- Whether a token is none of the words that start a clause. -/
def continues : Token → Bool
  | .word w => !clauseWords.contains w
  | _ => true

/-- The clauses of a text. -/
def readStatement (text : String) : Option Clauses :=
  let ts := tokens text.toList
  match ts.dropWhile continues with
  | .word "WHERE" :: .mark ' ' :: rest => do
    let (columns, root, joins) ← readHead (solid (ts.takeWhile continues))
    let (order, limit, offset) ← readFoot (solid (rest.dropWhile continues))
    return {
      columns, root, joins
      -- the last token before the next clause is a blank
      predicate := String.ofList ((rest.takeWhile continues).dropLast.flatMap Token.text)
      order, limit, offset }
  | _ => none

/-! ### Lists with commas -/

/-- Tokens of a list with a comma and a blank between each two neighbours. -/
def commaTokens : List (List Token) → List Token
  | [] => []
  | [ts] => ts
  | ts :: us :: rest => ts ++ .mark ',' :: .mark ' ' :: commaTokens (us :: rest)

theorem cut_commas {α : Type} {text : α → String} {toks : α → List Token}
    (h : ∀ a, Cut (text a).toList (toks a) 0) (as : List α) :
    Cut (Text.joined ", " (as.map text)).toList (commaTokens (as.map toks)) 0 := by
  induction as with
  | nil => exact Cut.nil
  | cons a as ih =>
      cases as with
      | nil => exact h a
      | cons b as =>
          have hcut := (h a).comma (Cut.nil.blank ih)
          simpa [Text.joined_cons_cons, commaTokens] using hcut

/-- A comma after a list would go on with it. -/
def Ends (rest : List Token) : Prop := ∀ ts, rest ≠ .mark ',' :: ts

/-- A reader that takes a last element and goes on at a comma takes a whole list. -/
theorem read_commaTokens {α : Type} {read : List Token → Option (List α × List Token)}
    {toks : α → List Token}
    (hlast : ∀ a rest, Ends rest → read (solid (toks a) ++ rest) = some ([a], rest))
    (hcons : ∀ a as ts rest, read ts = some (as, rest) →
      read (solid (toks a) ++ .mark ',' :: ts) = some (a :: as, rest))
    {as : List α} (hne : as ≠ []) {rest : List Token} (hrest : Ends rest) :
    read (solid (commaTokens (as.map toks)) ++ rest) = some (as, rest) := by
  induction as with
  | nil => exact absurd rfl hne
  | cons a as ih =>
      cases as with
      | nil => exact hlast a rest hrest
      | cons b as =>
          have hmore := ih (List.cons_ne_nil b as)
          simp only [List.map_cons, commaTokens] at hmore ⊢
          rw [solid_append, solid_cons _ (by decide), solid_cons_blank, List.append_assoc,
            List.cons_append]
          exact hcons a (b :: as) _ rest hmore

variable (d : Dialect)

@[simp] theorem name?_identifierToken (identifier : String) :
    (identifierToken d identifier).name? = some identifier := by
  unfold identifierToken
  split <;> rfl

@[simp] theorem column?_identifierToken (table name : String) :
    column? (identifierToken d table) (identifierToken d name) = some ⟨table, name⟩ := by
  simp [column?]

theorem readColumns_columns {columns : List ColumnRef} (hne : columns ≠ []) {rest : List Token}
    (hrest : Ends rest) :
    readColumns (solid (commaTokens (columns.map (columnTokens d))) ++ rest) =
      some (columns, rest) := by
  apply read_commaTokens _ _ hne hrest
  · intro column rest hrest
    rw [solid_columnTokens]
    simp only [columnTokens, List.cons_append, List.nil_append]
    rw [readColumns]
    · simp
    · exact hrest
  · intro column columns ts rest h
    rw [solid_columnTokens]
    simp only [columnTokens, List.cons_append, List.nil_append]
    simp [readColumns, h]

/-- A column as the dialect writes it. -/
def columnText (column : ColumnRef) : String := d.escape column.column (some column.table)

/-- A sort key as the dialect writes it. -/
def keyText (k : ColumnRef × SortDirection) : String := columnText d k.1 ++ " " ++ k.2.keyword

/-- The tokens of a sort key. -/
def keyTokens (k : ColumnRef × SortDirection) : List Token :=
  columnTokens d k.1 ++ [.mark ' ', .word k.2.keyword]

theorem solid_keyTokens (k : ColumnRef × SortDirection) :
    solid (keyTokens d k) = columnTokens d k.1 ++ [.word k.2.keyword] := by
  simp [keyTokens]

@[simp] theorem direction?_keyword (direction : SortDirection) :
    direction? direction.keyword = some direction := by
  cases direction <;> rfl

theorem readKeys_keys {keys : List (ColumnRef × SortDirection)} (hne : keys ≠ [])
    {rest : List Token} (hrest : Ends rest) :
    readKeys (solid (commaTokens (keys.map (keyTokens d))) ++ rest) = some (keys, rest) := by
  apply read_commaTokens _ _ hne hrest
  · intro k rest hrest
    rw [solid_keyTokens]
    simp only [columnTokens, List.cons_append, List.nil_append]
    rw [readKeys]
    · simp
    · exact hrest
  · intro k keys ts rest h
    rw [solid_keyTokens]
    simp only [columnTokens, List.cons_append, List.nil_append]
    simp [readKeys, h]

theorem cut_key (k : ColumnRef × SortDirection) : Cut (keyText d k).toList (keyTokens d k) 0 := by
  have hword : Cut k.2.keyword.toList [.word k.2.keyword] 0 := by
    apply Cut.word
    cases k.2 <;> decide
  have hkey := (cut_escape d k.1).blank hword
  simpa [keyText, columnText, keyTokens] using hkey

/-! ### Joins -/

/-- The first word of the keyword of a join kind. -/
def joinWord : JoinKind → String
  | .inner => "INNER"
  | .left => "LEFT"

@[simp] theorem joinKind?_joinWord (kind : JoinKind) : joinKind? (joinWord kind) = some kind := by
  cases kind <;> rfl

/-- The tokens of a join, with the blank before it. -/
def joinTokens (j : Join) : List Token :=
  .mark ' ' :: .word (joinWord j.kind) :: .mark ' ' :: .word "JOIN" :: .mark ' ' ::
    identifierToken d j.table :: .mark ' ' :: .word "ON" :: .mark ' ' ::
      (columnTokens d j.left ++ .mark ' ' :: .operator "=" :: .mark ' ' :: columnTokens d j.right)

/-- A join as the dialect writes it. -/
def writtenJoin (j : Join) : JoinClause where
  kind := j.kind
  table := d.escapeIdentifier j.table
  left := columnText d j.left
  right := columnText d j.right

theorem cut_join (j : Join) {part : List Char} {ts : List Token} {n : Nat} (h : Cut part ts n) :
    Cut (part ++ (joinText (writtenJoin d j)).toList) (ts ++ joinTokens d j) n := by
  have hkind : Cut (joinWord j.kind).toList [.word (joinWord j.kind)] 0 := by
    apply Cut.word
    cases j.kind <;> decide
  have hjoin : Cut "JOIN".toList [.word "JOIN"] 0 := Cut.word (by decide)
  have hon : Cut "ON".toList [.word "ON"] 0 := Cut.word (by decide)
  have hequal : Cut "=".toList [.operator "="] 0 := Cut.operator (by decide) (by decide)
  have hcondition := (cut_escape d j.left).blank (hequal.blank (cut_escape d j.right))
  have htable := (cut_escapeIdentifier d j.table).blank (hon.blank hcondition)
  have hcut := h.blank (hkind.blank (hjoin.blank htable))
  have hkeyword : j.kind.keyword.toList = (joinWord j.kind).toList ++ ' ' :: "JOIN".toList := by
    cases j.kind <;> rfl
  simpa [joinText, writtenJoin, columnText, joinTokens, hkeyword] using hcut

theorem cut_joins (js : List Join) {part : List Char} {ts : List Token} {n : Nat}
    (h : Cut part ts n) :
    Cut (part ++ (String.join ((js.map (writtenJoin d)).map joinText)).toList)
      (ts ++ js.flatMap (joinTokens d)) n := by
  induction js generalizing part ts with
  | nil => simpa using h
  | cons j js ih =>
      have := ih (cut_join d j h)
      simpa [String.toList_join] using this

theorem readJoins_joins (js : List Join) :
    readJoins (solid (js.flatMap (joinTokens d))) = some js := by
  induction js with
  | nil => rfl
  | cons j js ih =>
      rw [List.flatMap_cons, solid_append]
      simp [joinTokens, columnTokens, identifierToken_ne_mark, readJoins, ih]

end Sql

end CriteriaQuery
