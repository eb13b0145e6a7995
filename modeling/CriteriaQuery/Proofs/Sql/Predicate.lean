import CriteriaQuery.Proofs.Sql.Token

/-!
# Reading predicates

The grammar of predicate text. An operand is a test or a predicate in parentheses, operands
joined by `AND` are a conjunction, conjunctions joined by `OR` are a disjunction; a conjunction
or a disjunction of one part is that part. Blanks only keep tokens apart.

## Implementation notes

Operands are read from left to right. Each open parenthesis starts a level of its own, which
keeps the alternatives read so far and the operands of the last one; `OR` closes an
alternative, a closing parenthesis turns the whole level into an operand of the level around
it.
-/

namespace CriteriaQuery

namespace Sql

/-- A boolean tree of tests on columns, with something in the place of each parameter. -/
inductive Predicate (α : Type)
  | always
  | never
  | all (parts : List (Predicate α))
  | any (parts : List (Predicate α))
  | compare (column : ColumnRef) (op : Comparison) (value : α)
  | isNull (column : ColumnRef) (negated : Bool)
  | isIn (column : ColumnRef) (values : List α) (negated : Bool)
  | like (column : ColumnRef) (pattern : α)

namespace Predicate

variable {α β : Type}

mutual

/-- The tree with every parameter replaced. -/
def map (f : α → β) : Predicate α → Predicate β
  | .always => .always
  | .never => .never
  | .all parts => .all (mapAll f parts)
  | .any parts => .any (mapAll f parts)
  | .compare column op value => .compare column op (f value)
  | .isNull column negated => .isNull column negated
  | .isIn column values negated => .isIn column (values.map f) negated
  | .like column pattern => .like column (f pattern)

def mapAll (f : α → β) : List (Predicate α) → List (Predicate β)
  | [] => []
  | p :: ps => map f p :: mapAll f ps

end

mutual

/-- The parameters in the order of the text. -/
def values : Predicate α → List α
  | .always => []
  | .never => []
  | .all parts => valuesAll parts
  | .any parts => valuesAll parts
  | .compare _ _ value => [value]
  | .isNull _ _ => []
  | .isIn _ values _ => values
  | .like _ pattern => [pattern]

def valuesAll : List (Predicate α) → List α
  | [] => []
  | p :: ps => values p ++ valuesAll ps

end

/-- The tree of a text, in which parameters have a place but no value. -/
def shape (p : Predicate α) : Predicate Unit := p.map fun _ => ()

theorem mapAll_eq_map (f : α → β) (ps : List (Predicate α)) : mapAll f ps = ps.map (map f) := by
  induction ps with
  | nil => rfl
  | cons p ps ih => simp [mapAll, ih]

theorem valuesAll_eq_flatMap (ps : List (Predicate α)) : valuesAll ps = ps.flatMap values := by
  induction ps with
  | nil => rfl
  | cons p ps ih => simp [valuesAll, ih]

/-- Several parts are joined; one part stands for itself. -/
def gather (join : List (Predicate α) → Predicate α) : List (Predicate α) → Predicate α
  | [part] => part
  | parts => join parts

end Predicate

/-- What has been read inside one pair of parentheses. -/
structure Level where
  /-- The alternatives that an `OR` has closed. -/
  closed : List (Predicate Unit) := []
  /-- The operands of the last alternative. -/
  current : List (Predicate Unit) := []

namespace Level

def push (l : Level) (p : Predicate Unit) : Level := { l with current := l.current ++ [p] }

def alternative (l : Level) : Level where
  closed := l.closed ++ [Predicate.gather .all l.current]

/-- The predicate that a whole level is. -/
def predicate (l : Level) : Predicate Unit :=
  Predicate.gather .any (l.closed ++ [Predicate.gather .all l.current])

end Level

variable (d : Dialect)

/-- The identifier that a token is: one between the quotes of the dialect, or a plain word that
is not reserved, in the letter case to which the dialect folds it. -/
def identifier? : Token → Option String
  | .quoted quote name => if quote = d.quoteChar then some name else none
  | .word w =>
    if Dialect.isPlain w.toList && !d.isReserved w then
      match d with
      | .mysql => some w
      | .postgres => some w.toLower
    else none
  | _ => none

/-- A column: a table, a point and a name. -/
def readColumn : List Token → Option (ColumnRef × List Token)
  | table :: .mark '.' :: name :: rest =>
    match identifier? d table, identifier? d name with
    | some table, some name => some (⟨table, name⟩, rest)
    | _, _ => none
  | _ => none

/-- The number of placeholders up to a closing parenthesis. -/
def readPlaceholders : List Token → Option (Nat × List Token)
  | .mark '?' :: .mark ')' :: rest => some (1, rest)
  | .mark '?' :: .mark ',' :: rest => (readPlaceholders rest).map fun e => (e.1 + 1, e.2)
  | _ => none

/-- The comparison that an operator sign is. -/
def comparison? (sign : String) : Option Comparison :=
  match Operator.ofLiteral? sign with
  | some (.comparison op) => some op
  | _ => none

/-- What is tested of a column. -/
def readTest (column : ColumnRef) : List Token → Option (Predicate Unit × List Token)
  | .operator sign :: .mark '?' :: rest =>
    (comparison? sign).map fun op => (.compare column op (), rest)
  | .word "IS" :: .word "NULL" :: rest => some (.isNull column false, rest)
  | .word "IS" :: .word "NOT" :: .word "NULL" :: rest => some (.isNull column true, rest)
  | .word "IN" :: .mark '(' :: rest =>
    (readPlaceholders rest).map fun e => (.isIn column (List.replicate e.1 ()) false, e.2)
  | .word "NOT" :: .word "IN" :: .mark '(' :: rest =>
    (readPlaceholders rest).map fun e => (.isIn column (List.replicate e.1 ()) true, e.2)
  | .word "LIKE" :: .mark '?' :: rest => some (.like column (), rest)
  | _ => none

/-- A constant, or a test of a column. -/
def readAtom : List Token → Option (Predicate Unit × List Token)
  | .word "1" :: .operator "=" :: .word "1" :: rest => some (.always, rest)
  | .word "1" :: .operator "=" :: .word "0" :: rest => some (.never, rest)
  | ts => (readColumn d ts).bind fun e => readTest e.1 e.2

theorem length_readPlaceholders {ts rest : List Token} {n : Nat}
    (h : readPlaceholders ts = some (n, rest)) : rest.length < ts.length := by
  induction ts using readPlaceholders.induct generalizing n with
  | case1 ts =>
      simp only [readPlaceholders, Option.some.injEq, Prod.mk.injEq] at h
      simp only [← h.2, List.length_cons]
      omega
  | case2 ts ih =>
      simp only [readPlaceholders, Option.map_eq_some_iff, Prod.mk.injEq] at h
      obtain ⟨⟨m, rest'⟩, h, -, rfl⟩ := h
      have := ih h
      simp only [List.length_cons] at this ⊢
      omega
  | case3 ts h₁ h₂ => simp [readPlaceholders] at h

theorem length_readTest {column : ColumnRef} {ts rest : List Token} {p : Predicate Unit}
    (h : readTest column ts = some (p, rest)) : rest.length < ts.length := by
  unfold readTest at h
  split at h <;>
    simp only [Option.map_eq_some_iff, Option.some.injEq, Prod.mk.injEq, reduceCtorEq] at h <;>
    simp only [List.length_cons]
  · obtain ⟨op, -, -, rfl⟩ := h
    omega
  · obtain ⟨-, rfl⟩ := h
    omega
  · obtain ⟨-, rfl⟩ := h
    omega
  · obtain ⟨⟨n, rest'⟩, h, -, rfl⟩ := h
    have := length_readPlaceholders h
    dsimp only
    omega
  · obtain ⟨⟨n, rest'⟩, h, -, rfl⟩ := h
    have := length_readPlaceholders h
    dsimp only
    omega
  · obtain ⟨-, rfl⟩ := h
    omega

theorem length_readColumn {ts rest : List Token} {column : ColumnRef}
    (h : readColumn d ts = some (column, rest)) : rest.length < ts.length := by
  unfold readColumn at h
  split at h
  · split at h
    · simp only [Option.some.injEq, Prod.mk.injEq] at h
      simp only [← h.2, List.length_cons]
      omega
    · simp at h
  · simp at h

theorem length_readAtom {ts rest : List Token} {p : Predicate Unit}
    (h : readAtom d ts = some (p, rest)) : rest.length < ts.length := by
  unfold readAtom at h
  split at h
  · simp only [Option.some.injEq, Prod.mk.injEq] at h
    simp only [← h.2, List.length_cons]
    omega
  · simp only [Option.some.injEq, Prod.mk.injEq] at h
    simp only [← h.2, List.length_cons]
    omega
  · simp only [Option.bind_eq_some_iff, Prod.exists] at h
    obtain ⟨column, rest', hcolumn, htest⟩ := h
    exact (length_readTest htest).trans (length_readColumn d hcolumn)

mutual

/-- Reads from the start of an operand, given the levels around the one being read. -/
def readOperand (outer : List Level) (level : Level) (ts : List Token) :
    Option (Predicate Unit) :=
  match ts with
  | .mark '(' :: rest => readOperand (level :: outer) {} rest
  | ts =>
    match _h : readAtom d ts with
    | some (p, rest) => readRest outer (level.push p) rest
    | none => none
termination_by ts.length
decreasing_by
  · simp only [List.length_cons]
    omega
  · exact length_readAtom d _h

/-- Reads on after an operand. -/
def readRest (outer : List Level) (level : Level) (ts : List Token) :
    Option (Predicate Unit) :=
  match ts with
  | [] => if outer.isEmpty then some level.predicate else none
  | .word "AND" :: rest => readOperand outer level rest
  | .word "OR" :: rest => readOperand outer level.alternative rest
  | .mark ')' :: rest =>
    match outer with
    | around :: outer => readRest outer (around.push level.predicate) rest
    | [] => none
  | _ => none
termination_by ts.length

end

/-- The predicate that a text is. -/
def readPredicate (text : String) : Option (Predicate Unit) :=
  readOperand d [] {} ((tokens text.toList).filter (· ≠ .mark ' '))

end Sql

end CriteriaQuery
