import CriteriaQuery.Compile.Condition
import CriteriaQuery.Compile.Sql
import CriteriaQuery.Proofs.Sql.Agreement

/-!
# Why documents are refused

A document is refused for a name that does not resolve: the first one among the ends of the joins,
else the first one of the projection, else the first one of the criteria in document order. Names
to sort by are never a reason. What the query is compiled for plays no part in this, nor in any
part of the query but the predicate and the wording of the sort keys.

## Implementation notes

The reason is computed from the names alone, without compiling anything.
-/

namespace CriteriaQuery

/-! ### The error of a step -/

section Refused

variable {ε ε' α β : Type}

/-- The error of a step that fails. -/
def refused? : Except ε α → Option ε
  | .ok _ => none
  | .error e => some e

@[simp] theorem refused?_ok (a : α) : refused? (.ok a : Except ε α) = none := rfl

@[simp] theorem refused?_pure (a : α) : refused? (pure a : Except ε α) = none := rfl

@[simp] theorem refused?_error (e : ε) : refused? (.error e : Except ε α) = some e := rfl

theorem refused?_eq_some_iff {x : Except ε α} {e : ε} : refused? x = some e ↔ x = .error e := by
  cases x <;> simp

theorem refused?_eq_none_iff {x : Except ε α} : refused? x = none ↔ ∃ a, x = .ok a := by
  cases x <;> simp

/-- Of two steps one after the other the first error counts, if the second step has the same one
whatever it gets. -/
theorem refused?_bind {x : Except ε α} {f : α → Except ε β} {next : Option ε}
    (h : ∀ a, refused? (f a) = next) : refused? (x >>= f) = (refused? x).or next := by
  cases x with
  | ok a => exact h a
  | error e => rfl

end Refused

/-! ### The first name that does not resolve -/

/-- The names that the columns at the ends of a join are resolved by. -/
def JoinLink.ends (l : JoinLink) : List String :=
  [ColumnRef.qualify l.on.fromTable l.on.fromField, ColumnRef.qualify l.on.toTable l.on.toField]

/-- The names of the ends of all joins in order. -/
def JoinGraph.ends (g : JoinGraph) : List String := g.links.flatMap JoinLink.ends

namespace Scope

variable {P O P' O' : Type}

/-- Whether all names of a list resolve. -/
def Resolves (s : Scope) (names : List String) : Prop :=
  ∀ name ∈ names, ∃ column, s.resolve name = .ok column

/-- The first name of a list that does not resolve, with its error. -/
def firstUnresolved? (s : Scope) (names : List String) : Option (String × CatalogError) :=
  names.findSome? fun name => (refused? (s.resolve name)).map (name, ·)

/-- Why a document is refused. -/
def refusal? (s : Scope) (d : Document) : Option CompileError :=
  ((s.firstUnresolved? s.graph.ends).map fun u => .catalog u.2).or
    (((s.firstUnresolved? d.projection).map fun u => .catalog u.2).or
      ((s.firstUnresolved? d.criteria.fields).map fun u => .leaf u.1 u.2))

theorem firstUnresolved?_cons (s : Scope) (name : String) (rest : List String) :
    s.firstUnresolved? (name :: rest) =
      ((refused? (s.resolve name)).map (name, ·)).or (s.firstUnresolved? rest) := by
  rw [firstUnresolved?, List.findSome?_cons]
  cases refused? (s.resolve name) <;> rfl

theorem firstUnresolved?_append (s : Scope) (names names' : List String) :
    s.firstUnresolved? (names ++ names') =
      (s.firstUnresolved? names).or (s.firstUnresolved? names') :=
  List.findSome?_append

theorem firstUnresolved?_eq_none_iff {s : Scope} {names : List String} :
    s.firstUnresolved? names = none ↔ s.Resolves names := by
  simp [firstUnresolved?, Resolves, refused?_eq_none_iff]

theorem refused?_resolveAll (s : Scope) (names : List String) :
    refused? (s.resolveAll names) = (s.firstUnresolved? names).map Prod.snd := by
  induction names with
  | nil => rfl
  | cons name rest ih =>
      have hrest : ∀ column : ResolvedColumn,
          refused? (do let columns ← s.resolveAll rest; return column :: columns) =
            (s.firstUnresolved? rest).map Prod.snd := by
        intro column
        rw [refused?_bind fun _ => refused?_pure _, Option.or_none, ih]
      rw [resolveAll, refused?_bind hrest, firstUnresolved?_cons]
      cases refused? (s.resolve name) <;> rfl

theorem refused?_joinClause (s : Scope) (l : JoinLink) :
    refused? (s.joinClause l) = (s.firstUnresolved? l.ends).map Prod.snd := by
  unfold joinClause
  rw [refused?_bind fun left => refused?_bind fun right => refused?_pure _, JoinLink.ends,
    firstUnresolved?_cons, firstUnresolved?_cons]
  cases refused? (s.resolve (ColumnRef.qualify l.on.fromTable l.on.fromField)) with
  | some e => rfl
  | none => cases refused? (s.resolve (ColumnRef.qualify l.on.toTable l.on.toField)) <;> rfl

theorem refused?_joinClauses (s : Scope) (links : List JoinLink) :
    refused? (s.joinClauses links) =
      (s.firstUnresolved? (links.flatMap JoinLink.ends)).map Prod.snd := by
  induction links with
  | nil => rfl
  | cons l rest ih =>
      rw [joinClauses, refused?_bind fun clause => refused?_bind fun clauses => refused?_pure _,
        Option.or_none, ih, refused?_joinClause, List.flatMap_cons, firstUnresolved?_append]
      cases s.firstUnresolved? l.ends <;> rfl

mutual

/-- A tree is refused for the first of its fields that does not resolve. -/
theorem refused?_compileCriteria (s : Scope) (b : Backend P O) : ∀ c : Criteria,
    refused? (s.compileCriteria b c) =
      (s.firstUnresolved? c.fields).map fun u => CompileError.leaf u.1 u.2
  | .group connector children => by
      rw [compileCriteria, refused?_bind fun _ => refused?_pure _, Option.or_none,
        refused?_compileAll s b children, Criteria.fields]
  | .leaf field op value => by
      rw [compileCriteria, Criteria.fields, firstUnresolved?_cons]
      cases s.resolve field <;> rfl

theorem refused?_compileAll (s : Scope) (b : Backend P O) : ∀ cs : List Criteria,
    refused? (s.compileAll b cs) =
      (s.firstUnresolved? (Criteria.fieldsAll cs)).map fun u => CompileError.leaf u.1 u.2
  | [] => by
      rw [compileAll, Criteria.fieldsAll]
      rfl
  | c :: cs => by
      rw [compileAll, refused?_bind fun part => refused?_bind fun parts => refused?_pure _,
        Option.or_none, refused?_compileCriteria s b c, refused?_compileAll s b cs,
        Criteria.fieldsAll, firstUnresolved?_append]
      cases s.firstUnresolved? c.fields <;> rfl

end

theorem refused?_lift {α : Type} (x : Except CatalogError α) :
    refused? (lift x) = (refused? x).map .catalog := by
  cases x <;> rfl

/-- Compilation fails with the reason that the names give. -/
theorem refused?_compile (s : Scope) (b : Backend P O) (d : Document) :
    refused? (s.compile b d) = s.refusal? d := by
  unfold compile refusal?
  rw [refused?_bind fun joins => refused?_bind fun projection => refused?_bind fun predicate =>
      refused?_pure _, Option.or_none, refused?_lift, refused?_lift, refused?_joinClauses,
    refused?_resolveAll, refused?_compileCriteria, Option.map_map, Option.map_map]
  rfl

theorem refusal?_eq_none_iff {s : Scope} {d : Document} : s.refusal? d = none ↔
    s.Resolves s.graph.ends ∧ s.Resolves d.projection ∧ s.Resolves d.criteria.fields := by
  simp [refusal?, firstUnresolved?_eq_none_iff]

end Scope

/-! ### Two queries for one document -/

/-- Two backends have made of one document queries that are the same but for their predicates, and
that are sorted by the same columns in the same directions. -/
structure Compiled.Same {P O P' O' : Type} (b : Backend P O) (b' : Backend P' O')
    (q : Compiled P O) (q' : Compiled P' O') : Prop where
  source : q.source = q'.source
  joins : q.joins = q'.joins
  projection : q.projection = q'.projection
  window : q.window = q'.window
  warnings : q.warnings = q'.warnings
  orderBy : ∃ keys : List (ResolvedColumn × SortDirection),
    q.orderBy = keys.map (fun k => b.order k.1 k.2) ∧
      q'.orderBy = keys.map fun k => b'.order k.1 k.2

namespace Scope

variable {P O P' O' : Type}

/-- Whatever documents are compiled for, the same ones are refused for the same reasons. -/
theorem sameOutcome_compile (s : Scope) (b : Backend P O) (b' : Backend P' O') (d : Document) :
    SameOutcome (Compiled.Same b b') (s.compile b d) (s.compile b' d) := by
  unfold compile
  cases lift (s.joinClauses s.graph.links) with
  | error e => exact .error e
  | ok joins =>
      cases lift (s.resolveAll d.projection) with
      | error e => exact .error e
      | ok projection =>
          have htree := compileCriteria_inStep (Sql.inStep_trivial s b b') d.criteria
          rcases htree.exists_ok with ⟨p, p', hp, hp', -⟩ | ⟨e, he, he'⟩
          · rw [hp, hp']
            exact .ok ⟨rfl, rfl, rfl, rfl, rfl, _, rfl, rfl⟩
          · rw [he, he']
            exact .error e

/-- A document is compiled if the names of its joins, its projection and its criteria resolve, and
is refused for the first one that does not. Sort keys are no reason, and SQL and conditions are
made of the same documents, with the same parts and keys. -/
theorem compile_outcome (s : Scope) (d : Document) :
    (∀ {P O : Type} (b : Backend P O),
      ((∃ q, s.compile b d = .ok q) ↔
        s.Resolves s.graph.ends ∧ s.Resolves d.projection ∧ s.Resolves d.criteria.fields) ∧
      (∀ e, s.compile b d = .error e ↔ s.refusal? d = some e) ∧
      ∀ sorter e, s.compile b { d with sorter } = .error e ↔ s.compile b d = .error e) ∧
    SameOutcome (Compiled.Same Sql.backend Condition.backend) (s.compile Sql.backend d)
      (s.compile Condition.backend d) := by
  refine ⟨fun b => ⟨?_, fun e => ?_, fun sorter e => ?_⟩, s.sameOutcome_compile _ _ d⟩
  · rw [← refused?_eq_none_iff, refused?_compile, refusal?_eq_none_iff]
  · rw [← refused?_eq_some_iff, refused?_compile]
  · rw [← refused?_eq_some_iff, ← refused?_eq_some_iff, refused?_compile, refused?_compile]
    rfl

/-- Where no name resolves, the first leaf counts, and a sort key does not. -/
example : ({ registry := ∅, graph := ⟨⟨"e", "t", ∅, ∅⟩, []⟩, dialect := .mysql, limits := {} } :
    Scope).refusal? { criteria := .group .or [.group .and [], .leaf "x" (.nullTest true) .absent,
      .leaf "y" (.nullTest true) .absent], sorter := [⟨"z", .ascending⟩] } =
    some (.leaf "x" (.unresolvedField "x")) := rfl

end Scope

end CriteriaQuery
