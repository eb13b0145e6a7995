import CriteriaQuery.Compile.Condition
import CriteriaQuery.Proofs.Criteria.Shape
import CriteriaQuery.Proofs.Like
import Mathlib.Data.List.Forall2

/-!
# The meaning of criteria

What a criteria tree asks of a row is said on the tree itself, without conditions. A tree that
the reader accepts and whose fields resolve compiles to a condition that holds on exactly the
rows that meet the tree.

## Implementation notes

Compilation and evaluation are followed node by node: one lemma for a leaf, one for a group, and
the induction over the tree puts them together. Only a leaf needs its value to fit its operator.
-/

namespace CriteriaQuery

/-- The order of a row's value against the literal that a comparison asks for. -/
def Comparison.Asks : Comparison → Ordering → Prop
  | .equal, order => order = .eq
  | .notEqual, order => order ≠ .eq
  | .greater, order => order = .gt
  | .greaterOrEqual, order => order = .gt ∨ order = .eq
  | .less, order => order = .lt
  | .lessOrEqual, order => order = .lt ∨ order = .eq

theorem Comparison.accepts_iff (c : Comparison) (order : Ordering) :
    c.accepts order = true ↔ c.Asks order := by
  cases c <;> cases order <;> simp [accepts, Asks]

/-- What an operator with its value asks of a column, which a row may lack. -/
def Operator.Holds : Operator → LeafValue → Option Scalar → Prop
  | .comparison c, .one value, actual =>
    ∃ a order, actual = some a ∧ a.compare? value = some order ∧ c.Asks order
  | .nullTest false, _, actual => actual = none
  | .nullTest true, _, actual => ∃ a, actual = some a
  | .membership false, .many values, actual =>
    ∃ a, actual = some a ∧ ∃ value ∈ values, a.compare? value = some .eq
  | .membership true, .many values, actual =>
    values = [] ∨ ∃ a, actual = some a ∧ ∀ value ∈ values, a.compare? value ≠ some .eq
  | .pattern anchor, .one value, actual =>
    ∃ a, actual = some a ∧ anchor.Fits value.bareText.toList a.bareText.toList
  | _, _, _ => False

namespace Criteria

variable (s : Scope) (row : Row)

mutual

/-- Whether a row meets a tree: a group without children asks for nothing. -/
def Meets : Criteria → Prop
  | .group .and children => AllMeet children
  | .group .or children => children = [] ∨ SomeMeets children
  | .leaf field op value =>
    ∃ column, s.registry.resolve field = .ok column ∧ op.Holds value (row.get? column)

def AllMeet : List Criteria → Prop
  | [] => True
  | c :: cs => Meets c ∧ AllMeet cs

def SomeMeets : List Criteria → Prop
  | [] => False
  | c :: cs => Meets c ∨ SomeMeets cs

end

end Criteria

namespace Condition

theorem meets_iff (actual : Scalar) (c : Comparison) (value : Scalar) :
    meets actual c value = true ↔ ∃ order, actual.compare? value = some order ∧ c.Asks order := by
  unfold meets
  cases actual.compare? value with
  | none => simp
  | some order => simp [Comparison.accepts_iff]

theorem isAmong_iff (actual : Scalar) (values : List Scalar) :
    isAmong actual values = true ↔ ∃ value ∈ values, actual.compare? value = some .eq := by
  simp [isAmong]

variable {row : Row} {column : EscapedColumn}

theorem holds_compare {c : Comparison} {value : Scalar} :
    (compare column c value).holds row = true ↔
      (Operator.comparison c).Holds (.one value) (row.get? column.column) := by
  rw [holds, Operator.Holds]
  cases row.get? column.column with
  | none => simp
  | some a => simp [meets_iff]

theorem holds_isNull {negated : Bool} {value : LeafValue} :
    (isNull column negated).holds row = true ↔
      (Operator.nullTest negated).Holds value (row.get? column.column) := by
  rw [holds]
  cases negated <;> cases row.get? column.column <;> simp [Operator.Holds]

/-- A list test with values says of a column what its operator says. -/
theorem holds_isIn {values : List Scalar} {negated : Bool} (hne : values ≠ []) :
    (isIn column values negated).holds row = true ↔
      (Operator.membership negated).Holds (.many values) (row.get? column.column) := by
  rw [holds]
  cases hactual : row.get? column.column with
  | none => cases negated <;> simp [Operator.Holds, hne]
  | some a =>
      have hamong := isAmong_iff a values
      cases negated with
      | false => simpa [Operator.Holds] using hamong
      | true =>
          simp only [Operator.Holds, hne, false_or, Option.some.injEq, exists_eq_left']
          cases hcase : isAmong a values with
          | false =>
              rw [hcase] at hamong
              simpa using hamong
          | true =>
              obtain ⟨value, hvalue, heq⟩ := hamong.mp hcase
              simp only [bne_self_eq_false, Bool.false_eq_true, false_iff]
              intro hnone
              exact hnone value hvalue heq

theorem holds_like {anchor : Anchor} {value : Scalar} :
    (like column (anchor.wrap (Like.escaped likeEscape value.bareText)) likeEscape).holds row =
        true ↔
      (Operator.pattern anchor).Holds (.one value) (row.get? column.column) := by
  have hescape : likeEscape ≠ '%' := by decide
  rw [holds, Operator.Holds]
  cases row.get? column.column with
  | none => simp
  | some a => simp [Like.isMatch_wrap_escaped_iff hescape]

end Condition

namespace Scope

variable {s : Scope}

/-- A leaf whose value fits its operator becomes a condition that says what the operator says. -/
theorem holds_leafPredicate {column : ResolvedColumn} {op : Operator} {value : LeafValue}
    (hshape : op.arity? = some value.arity) (row : Row) :
    (leafPredicate Condition.backend column op value).holds row = true ↔
      op.Holds value (row.get? column.column) := by
  cases op with
  | connective c => simp [Operator.arity?] at hshape
  | comparison c =>
      cases value with
      | one v => exact Condition.holds_compare
      | absent => simp [Operator.arity?, LeafValue.arity] at hshape
      | many vs => simp [Operator.arity?, LeafValue.arity] at hshape
  | nullTest negated => exact Condition.holds_isNull
  | membership negated =>
      cases value with
      | one v => simp [Operator.arity?, LeafValue.arity] at hshape
      | absent => simp [Operator.arity?, LeafValue.arity] at hshape
      | many vs =>
          cases vs with
          | nil => cases negated <;> simp [leafPredicate, LeafValue.toList, Condition.backend,
              Condition.holds, Operator.Holds]
          | cons v vs => exact Condition.holds_isIn (List.cons_ne_nil v vs)
  | pattern anchor =>
      cases value with
      | one v => exact Condition.holds_like
      | absent => simp [Operator.arity?, LeafValue.arity] at hshape
      | many vs => simp [Operator.arity?, LeafValue.arity] at hshape

/-- The condition holds on exactly the rows that meet the tree. -/
def Means (s : Scope) (condition : Condition) (tree : Criteria) : Prop :=
  ∀ row, condition.holds row = true ↔ tree.Meets s row

theorem allHold_iff {conditions : List Condition} {trees : List Criteria}
    (h : List.Forall₂ s.Means conditions trees) (row : Row) :
    Condition.allHold row conditions = true ↔ Criteria.AllMeet s row trees := by
  induction h with
  | nil => simp [Condition.allHold, Criteria.AllMeet]
  | cons hfirst _ ih => rw [Condition.allHold, Criteria.AllMeet, Bool.and_eq_true, hfirst row, ih]

theorem anyHolds_iff {conditions : List Condition} {trees : List Criteria}
    (h : List.Forall₂ s.Means conditions trees) (row : Row) :
    Condition.anyHolds row conditions = true ↔ Criteria.SomeMeets s row trees := by
  induction h with
  | nil => simp [Condition.anyHolds, Criteria.SomeMeets]
  | cons hfirst _ ih => rw [Condition.anyHolds, Criteria.SomeMeets, Bool.or_eq_true, hfirst row, ih]

/-- A group of trees becomes a condition that says what the group says. -/
theorem groupPredicate_means {conditions : List Condition} {trees : List Criteria}
    (connector : Connector) (h : List.Forall₂ s.Means conditions trees) :
    s.Means (groupPredicate Condition.backend connector conditions) (.group connector trees) := by
  intro row
  have hall := allHold_iff h row
  have hany := anyHolds_iff h row
  cases h with
  | nil =>
      cases connector <;> simp [groupPredicate, Condition.backend, Condition.holds, Criteria.Meets,
        Criteria.AllMeet]
  | cons hfirst htail =>
      cases htail with
      | nil =>
          rw [groupPredicate, hfirst row]
          cases connector <;> simp [Criteria.Meets, Criteria.AllMeet, Criteria.SomeMeets]
      | cons hsecond htail =>
          cases connector with
          | and => simpa only [groupPredicate, Condition.backend, Condition.combine, Condition.holds,
              Criteria.Meets] using hall
          | or =>
              simp only [groupPredicate, Condition.backend, Condition.combine, Condition.holds,
                Criteria.Meets, hany, reduceCtorEq, false_or]

theorem resolve_of_registry {field : String} {column : ColumnRef}
    (h : s.registry.resolve field = .ok column) :
    ∃ resolved, s.resolve field = .ok resolved ∧ resolved.column = column := by
  rw [resolve, h]
  exact ⟨_, rfl, rfl⟩

mutual

theorem exists_compileCriteria_means :
    ∀ tree : Criteria, tree.WellShaped →
      (∀ field ∈ tree.fields, ∃ column, s.registry.resolve field = .ok column) →
      ∃ condition, s.compileCriteria Condition.backend tree = .ok condition ∧
        s.Means condition tree
  | .group connector children => by
      intro hshape hfields
      obtain ⟨conditions, hcompiled, hmeans⟩ := exists_compileAll_means children hshape hfields
      refine ⟨groupPredicate Condition.backend connector conditions, ?_,
        groupPredicate_means connector hmeans⟩
      rw [compileCriteria, hcompiled]
      rfl
  | .leaf field op value => by
      intro hshape hfields
      obtain ⟨column, hcolumn⟩ := hfields field (List.mem_singleton_self field)
      obtain ⟨resolved, hresolved, rfl⟩ := resolve_of_registry hcolumn
      refine ⟨leafPredicate Condition.backend resolved op value, ?_, ?_⟩
      · rw [compileCriteria, hresolved]
      · intro row
        rw [holds_leafPredicate hshape row, Criteria.Meets]
        constructor
        · intro hholds
          exact ⟨resolved.column, hcolumn, hholds⟩
        · rintro ⟨column', hcolumn', hholds⟩
          obtain rfl : resolved.column = column' := by
            simpa [hcolumn] using hcolumn'
          exact hholds

theorem exists_compileAll_means :
    ∀ trees : List Criteria, Criteria.AllWellShaped trees →
      (∀ field ∈ Criteria.fieldsAll trees, ∃ column, s.registry.resolve field = .ok column) →
      ∃ conditions, s.compileAll Condition.backend trees = .ok conditions ∧
        List.Forall₂ s.Means conditions trees
  | [] => by
      intro _ _
      exact ⟨[], rfl, .nil⟩
  | tree :: trees => by
      intro hshape hfields
      obtain ⟨condition, hfirst, hmeans⟩ := exists_compileCriteria_means tree hshape.1
        fun field hfield => hfields field (List.mem_append_left _ hfield)
      obtain ⟨conditions, hrest, hmeansAll⟩ := exists_compileAll_means trees hshape.2
        fun field hfield => hfields field (List.mem_append_right _ hfield)
      refine ⟨condition :: conditions, ?_, .cons hmeans hmeansAll⟩
      rw [compileAll, hfirst, hrest]
      rfl

end

/-- Criteria that the reader accepts and whose fields resolve compile to a condition that holds on
exactly the rows that meet them. -/
theorem condition_holds_iff_meets (s : Scope) (value : Json) (path : String) (tree : Criteria)
    (hread : Criteria.read value path = .ok tree)
    (hfields : ∀ field ∈ tree.fields, ∃ column, s.registry.resolve field = .ok column) :
    ∃ condition, s.compileCriteria Condition.backend tree = .ok condition ∧
      ∀ row, condition.holds row = true ↔ tree.Meets s row :=
  exists_compileCriteria_means tree (Criteria.wellShaped_of_read hread) hfields

/-- A scope with one name, whose column is called otherwise. -/
def memberScope : Scope where
  registry :=
    { owners := SortedMap.ofList [("name", ⟨"members", "full_name"⟩)]
      shared := ∅, explicit := ∅, aliases := ∅ }
  graph := ⟨⟨"member", "members", ∅, ∅⟩, []⟩
  dialect := .postgres
  limits := {}

/-- A group without children and two leaves, joined by `OR`. -/
def memberJson : Json :=
  .object [("connector", .string "OR"), ("children", .array [
    .object [("connector", .string "OR")],
    .object [("field", .string "name"), ("op", .string "ni"), ("value", .array [])],
    .object [("field", .string "name"), ("op", .string "c"), ("value", .string "5%")]])]

def memberCriteria : Criteria :=
  .group .or [.group .or [], .leaf "name" (.membership true) (.many []),
    .leaf "name" (.pattern .anywhere) (.one (.text "5%"))]

theorem read_memberJson : Criteria.read memberJson "criteria" = .ok memberCriteria := by
  have hor : Criteria.readToken "OR" = .ok (.connective .or) := by rfl
  have hni : Criteria.readToken "ni" = .ok (.membership true) := by rfl
  have hc : Criteria.readToken "c" = .ok (.pattern .anywhere) := by rfl
  have hname : Text.isBlank "name" = false := by decide
  simp [memberJson, memberCriteria, Criteria.read, Criteria.readAll, Json.hasMember, Json.member?,
    Criteria.readConnector, Criteria.readLeaf, Criteria.readField, Criteria.readOperator, hor, hni,
    hc, hname, Operator.connector?, Operator.arity?, LeafValue.read, LeafValue.readScalars,
    Scalar.ofJson?, Except.map, bind, Except.bind, pure, Except.pure]

theorem condition_holds_iff_meets_member :
    Criteria.read memberJson "criteria" = .ok memberCriteria ∧
      ∃ condition, memberScope.compileCriteria Condition.backend memberCriteria = .ok condition ∧
        ∀ row, condition.holds row = true ↔ memberCriteria.Meets memberScope row := by
  refine ⟨read_memberJson, condition_holds_iff_meets memberScope memberJson "criteria"
    memberCriteria read_memberJson ?_⟩
  intro field hfield
  obtain rfl : field = "name" := by
    simpa [memberCriteria, Criteria.fields, Criteria.fieldsAll] using hfield
  exact ⟨⟨"members", "full_name"⟩, rfl⟩

end Scope

end CriteriaQuery
