import CriteriaQuery.Compile.Condition
import CriteriaQuery.Proofs.Backend
import CriteriaQuery.Proofs.Sql.Fragment

/-!
# SQL text and conditions

The text that the SQL backend makes of a criteria tree and the condition that the condition
backend makes of it are the same boolean tree. The text is read as a tree whose connectives,
columns and tests are those of the condition, in the same order and nesting, and the values
of the condition are the parameters of the text, each at its own placeholder.

## Implementation notes

The two backends escape the literal of a pattern differently, so patterns are related through
that literal and not compared.
-/

namespace CriteriaQuery

namespace Sql

/-- The tree of a text and a condition say the same. -/
inductive Agrees : Predicate Scalar → Condition → Prop
  | always : Agrees .always .always
  | never : Agrees .never .never
  | all {ps : List (Predicate Scalar)} {cs : List Condition} (h : List.Forall₂ Agrees ps cs) :
    Agrees (.all ps) (.all cs)
  | any {ps : List (Predicate Scalar)} {cs : List Condition} (h : List.Forall₂ Agrees ps cs) :
    Agrees (.any ps) (.any cs)
  | compare (column : EscapedColumn) (op : Comparison) (value : Scalar) :
    Agrees (.compare column.column op value) (.compare column op value)
  | isNull (column : EscapedColumn) (negated : Bool) :
    Agrees (.isNull column.column negated) (.isNull column negated)
  | isIn (column : EscapedColumn) (values : List Scalar) (negated : Bool) :
    Agrees (.isIn column.column values negated) (.isIn column values negated)
  /-- The patterns stand for the same literal at the same anchor. -/
  | like (column : EscapedColumn) (anchor : Anchor) (literal : String) :
    Agrees
      (.like column.column (.text (anchor.wrap (Like.escaped Sql.likeEscape literal))))
      (.like column (anchor.wrap (Like.escaped Condition.likeEscape literal))
        Condition.likeEscape)

/-- The fragment is the text of a tree which says the same as the condition. -/
def Says (d : Dialect) (f : SqlFragment) (c : Condition) : Prop :=
  ∃ p, Writes d f p ∧ Agrees p c

theorem written_of_resolve {s : Scope} {field : String} {column : ResolvedColumn}
    (h : s.resolve field = .ok column) : Written s.dialect column.toEscapedColumn := by
  unfold Scope.resolve at h
  cases hr : s.registry.resolve field with
  | error e => simp [hr, bind, Except.bind] at h
  | ok ref =>
      simp only [hr, bind, Except.bind, pure, Except.pure, Except.ok.injEq] at h
      rw [← h]
      rfl

theorem exists_of_forall₂_says {d : Dialect} {fs : List SqlFragment} {cs : List Condition}
    (h : List.Forall₂ (Says d) fs cs) :
    ∃ ps, List.Forall₂ (Writes d) fs ps ∧ List.Forall₂ Agrees ps cs := by
  induction h with
  | nil => exact ⟨[], .nil, .nil⟩
  | cons hfirst _ ih =>
      obtain ⟨p, hwrites, hagrees⟩ := hfirst
      obtain ⟨ps, hwritesAll, hagreesAll⟩ := ih
      exact ⟨p :: ps, .cons hwrites hwritesAll, .cons hagrees hagreesAll⟩

/-- Operation by operation, the SQL text says what the condition says. -/
theorem backend_inStep (s : Scope) :
    Sql.backend.InStep s (Says s.dialect) Condition.backend where
  alwaysTrue := ⟨.always, writes_always, .always⟩
  alwaysFalse := ⟨.never, writes_never, .never⟩
  combine := by
    intro c fs cs h hlen
    obtain ⟨ps, hwrites, hagrees⟩ := exists_of_forall₂_says h
    refine ⟨connective c ps, writes_combine c hwrites hlen, ?_⟩
    cases c with
    | and => exact .all hagrees
    | or => exact .any hagrees
  compare := fun _ _ h op value =>
    ⟨_, writes_compare (written_of_resolve h) op value, .compare _ op value⟩
  nullTest := fun _ _ h negated =>
    ⟨_, writes_nullTest (written_of_resolve h) negated, .isNull _ negated⟩
  membership := fun _ _ h values negated hne =>
    ⟨_, writes_membership (written_of_resolve h) hne negated, .isIn _ values negated⟩
  pattern := fun _ _ h anchor literal =>
    ⟨_, writes_pattern (written_of_resolve h) anchor literal, .like _ anchor literal⟩

theorem Writes.readPredicate_eq {d : Dialect} {f : SqlFragment} {p : Predicate Scalar}
    (h : Writes d f p) : readPredicate d f.text = some p.shape := by
  obtain ⟨ts, hcut, hlevel⟩ := h.level
  rw [readPredicate, hcut.lexes.tokens_eq]
  exact hlevel.readOperand_eq

theorem Writes.placeholders_eq {d : Dialect} {f : SqlFragment} {p : Predicate Scalar}
    (h : Writes d f p) : placeholders f.text = f.params.length := by
  obtain ⟨ts, hcut, -⟩ := h.level
  rw [placeholders, hcut.lexes.tokens_eq, hcut.count]

/-- Any backend stands in step with any other where nothing is asked of the predicates. -/
theorem inStep_trivial {P O P' O' : Type} (s : Scope) (b : Backend P O) (b' : Backend P' O') :
    b.InStep s (fun _ _ => True) b' := by
  constructor <;> intros <;> trivial

/-- What a tree is compiled to is the text of a tree which says what its condition says. -/
theorem exists_writes_of_compileCriteria {s : Scope} {tree : Criteria} {f : SqlFragment}
    (h : s.compileCriteria Sql.backend tree = .ok f) :
    ∃ c p, s.compileCriteria Condition.backend tree = .ok c ∧ Writes s.dialect f p ∧
      Agrees p c := by
  rcases (Scope.compileCriteria_inStep (backend_inStep s) tree).exists_ok with
    ⟨f', c, hf', hc, p, hwrites, hagrees⟩ | ⟨e, he, -⟩
  · obtain rfl : f' = f := by simpa [h] using hf'.symm
    exact ⟨c, p, hc, hwrites, hagrees⟩
  · simp [h] at he

/-- A tree that some backend compiles is compiled by both: the text reads as a tree that says
the same as the condition, and has a placeholder for each of its parameters, in order. -/
theorem sql_agrees_with_condition (s : Scope) (tree : Criteria) {P O : Type} (b : Backend P O)
    (q : P) (h : s.compileCriteria b tree = .ok q) :
    ∃ f c p, s.compileCriteria Sql.backend tree = .ok f ∧
      s.compileCriteria Condition.backend tree = .ok c ∧
      readPredicate s.dialect f.text = some p.shape ∧ Agrees p c ∧
      placeholders f.text = f.params.length ∧ p.values = f.params := by
  rcases (Scope.compileCriteria_inStep (inStep_trivial s b Sql.backend) tree).exists_ok with
    ⟨-, f, -, hf, -⟩ | ⟨e, he, -⟩
  · obtain ⟨c, p, hc, hwrites, hagrees⟩ := exists_writes_of_compileCriteria hf
    exact ⟨f, c, p, hf, hc, hwrites.readPredicate_eq, hagrees, hwrites.placeholders_eq,
      hwrites.values⟩
  · simp [h] at he

/-- Two columns of one table, whose names need quotes in both dialects. -/
def quotedScope (d : Dialect) : Scope where
  registry :=
    { owners := SortedMap.ofList [("a", ⟨"t`\"", "or"⟩), ("b", ⟨"t`\"", "x ?"⟩)]
      shared := ∅, explicit := ∅, aliases := ∅ }
  graph := ⟨⟨"e", "t`\"", ∅, ∅⟩, []⟩
  dialect := d
  limits := {}

/-- Groups in groups, one of them with a single child, and a list test without values. -/
def nestedCriteria : Criteria :=
  .group .and [
    .group .or [.leaf "a" (.comparison .equal) (.one (.int 1)), .leaf "b" (.nullTest false) .absent,
      .leaf "b" (.membership true) (.many [])],
    .group .or [.leaf "a" (.membership true) (.many [.int 2, .text "?"])],
    .leaf "b" (.pattern .start) (.one (.text "5%"))]

theorem sql_agrees_with_condition_nested :
    ∃ q, (quotedScope .mysql).compileCriteria Sql.backend nestedCriteria = .ok q ∧
      ∃ f c p, (quotedScope .mysql).compileCriteria Sql.backend nestedCriteria = .ok f ∧
        (quotedScope .mysql).compileCriteria Condition.backend nestedCriteria = .ok c ∧
        readPredicate .mysql f.text = some p.shape ∧ Agrees p c ∧
        placeholders f.text = f.params.length ∧ p.values = f.params :=
  ⟨_, rfl, sql_agrees_with_condition (quotedScope .mysql) nestedCriteria Sql.backend _ rfl⟩

end Sql

end CriteriaQuery
