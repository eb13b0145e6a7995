import CriteriaQuery.Proofs.Criteria.Meaning

/-!
# List tests and comparisons

A test for one of several values says what an `OR` group of equalities says. A test for none of
them says what an `AND` group of inequalities says, on every row whose value is comparable with all
of them or equals one of them. Any other value is outside the list, but there is a value in the list
that it does not differ from either.

## Implementation notes

Values are compared by a partial order: numbers with numbers, texts with texts, truth values with
truth values, and the undefined number with nothing.
-/

namespace CriteriaQuery

/-- A group with one comparison of a field for each value of a list. -/
def Criteria.compareEach (connector : Connector) (field : String) (c : Comparison)
    (values : List Scalar) : Criteria :=
  .group connector (values.map fun value => .leaf field (.comparison c) (.one value))

namespace Condition

variable {row : Row} {column : EscapedColumn} {values : List Scalar}

theorem meets_equal (actual value : Scalar) :
    meets actual .equal value = (actual.compare? value == some .eq) := by
  unfold meets
  cases actual.compare? value with
  | none => rfl
  | some order => cases order <;> rfl

/-- Only a value that is comparable with another one differs from it. -/
theorem meets_notEqual (actual value : Scalar) :
    meets actual .notEqual value =
      (actual.compare? value != some .eq && (actual.compare? value).isSome) := by
  unfold meets
  cases actual.compare? value with
  | none => rfl
  | some order => cases order <;> rfl

/-- Whether a value is comparable with all values of a list. -/
def isComparable (actual : Scalar) (values : List Scalar) : Bool :=
  values.all fun value => (actual.compare? value).isSome

theorem isComparable_iff {actual : Scalar} :
    isComparable actual values = true ↔ ∀ value ∈ values, actual.compare? value ≠ none := by
  simp [isComparable, Option.isSome_iff_ne_none]

theorem any_meets_equal (actual : Scalar) (values : List Scalar) :
    (values.any fun value => meets actual .equal value) = isAmong actual values := by
  simp only [meets_equal, isAmong]

/-- A value differs from all of a list when it is outside the list and comparable with all of it. -/
theorem all_meets_notEqual_iff (actual : Scalar) (values : List Scalar) :
    (values.all fun value => meets actual .notEqual value) = true ↔
      isAmong actual values = false ∧ isComparable actual values = true := by
  simp [meets_notEqual, isAmong, isComparable, forall_and]

/-- A list test for one of the values says what equalities with each of them say. -/
theorem holds_isIn_eq_any :
    (isIn column values false).holds row =
      values.any fun value => (compare column .equal value).holds row := by
  simp only [holds]
  cases row.get? column.column with
  | none => simp
  | some actual => simp [any_meets_equal]

/-- Inequalities with each of the values say more than the list test for none of them: the row's
value is comparable with all of them. -/
theorem all_notEqual_iff (row : Row) (column : EscapedColumn) (hne : values ≠ []) :
    (values.all fun value => (compare column .notEqual value).holds row) = true ↔
      (isIn column values true).holds row = true ∧
        ∀ actual, row.get? column.column = some actual → isComparable actual values = true := by
  simp only [holds]
  cases row.get? column.column with
  | none => simp [List.eq_nil_iff_forall_not_mem.not.mp hne]
  | some actual => simpa using all_meets_notEqual_iff actual values

end Condition

namespace Scope

open Condition

variable {s : Scope} {row : Row}

/-- The comparisons of a field become comparisons of its column. -/
theorem compileAll_compareEach {field : String} {column : ResolvedColumn}
    (hcolumn : s.resolve field = .ok column) (c : Comparison) (values : List Scalar) :
    s.compileAll Condition.backend
        (values.map fun value => .leaf field (.comparison c) (.one value)) =
      .ok (values.map fun value => .compare column.toEscapedColumn c value) := by
  induction values with
  | nil => rfl
  | cons value values ih =>
      rw [List.map_cons, compileAll, compileCriteria, hcolumn, ih]
      rfl

theorem holds_groupPredicate_and (parts : List Condition) :
    (groupPredicate Condition.backend .and parts).holds row = parts.all (holds row) := by
  match parts with
  | [] => rfl
  | [part] => simp [groupPredicate]
  | first :: second :: rest => exact allHold_eq_all row _

theorem holds_groupPredicate_or {parts : List Condition} (hne : parts ≠ []) :
    (groupPredicate Condition.backend .or parts).holds row = parts.any (holds row) := by
  match parts with
  | [] => exact absurd rfl hne
  | [part] => simp [groupPredicate]
  | first :: second :: rest => exact anyHolds_eq_any row _

theorem leafPredicate_membership (column : ResolvedColumn) (negated : Bool) {values : List Scalar}
    (hne : values ≠ []) :
    leafPredicate Condition.backend column (.membership negated) (.many values) =
      .isIn column.toEscapedColumn values negated := by
  obtain ⟨value, values, rfl⟩ := List.exists_cons_of_ne_nil hne
  rfl

/-- The list test for none of the values agrees with the inequalities unless the row has a value that
is outside the list and not comparable with all of it. -/
theorem holds_isIn_eq_all_iff {column : EscapedColumn} {values : List Scalar} (hne : values ≠ []) :
    ((isIn column values true).holds row =
        values.all fun value => (Condition.compare column .notEqual value).holds row) ↔
      ∀ actual, row.get? column.column = some actual →
        (∃ value ∈ values, actual.compare? value = some .eq) ∨
          ∀ value ∈ values, actual.compare? value ≠ none := by
  have hdiffer := all_notEqual_iff row column hne
  rw [Bool.eq_iff_iff, hdiffer]
  simp only [holds, isComparable_iff, ← isAmong_iff]
  cases row.get? column.column with
  | none => simp
  | some actual => cases hamong : isAmong actual values <;> simp [hamong]

/-- A list test agrees with a comparison for each of its values: the test for one of them on every
row, and the test for none of them on exactly the rows whose value, if they have one, equals one of
the values or is comparable with all of them. -/
theorem membership_agrees_iff (s : Scope) (field : String) (column : ColumnRef)
    (values : List Scalar) (hcolumn : s.registry.resolve field = .ok column) (hne : values ≠ []) :
    ∃ among equal outside differ,
      s.compileCriteria Condition.backend (.leaf field (.membership false) (.many values)) =
        .ok among ∧
      s.compileCriteria Condition.backend (.compareEach .or field .equal values) = .ok equal ∧
      s.compileCriteria Condition.backend (.leaf field (.membership true) (.many values)) =
        .ok outside ∧
      s.compileCriteria Condition.backend (.compareEach .and field .notEqual values) = .ok differ ∧
      ∀ row : Row, among.holds row = equal.holds row ∧
        (differ.holds row = true → outside.holds row = true) ∧
        (outside.holds row = differ.holds row ↔
          ∀ actual, row.get? column = some actual →
            (∃ value ∈ values, actual.compare? value = some .eq) ∨
              ∀ value ∈ values, actual.compare? value ≠ none) := by
  obtain ⟨resolved, hresolved, rfl⟩ := resolve_of_registry hcolumn
  have hleaf : ∀ negated, s.compileCriteria Condition.backend
      (.leaf field (.membership negated) (.many values)) =
        .ok (.isIn resolved.toEscapedColumn values negated) := fun negated => by
    rw [compileCriteria, hresolved]
    exact congrArg Except.ok (leafPredicate_membership resolved negated hne)
  have hgroup : ∀ connector c, s.compileCriteria Condition.backend
      (.compareEach connector field c values) = .ok (groupPredicate Condition.backend connector
        (values.map fun value => .compare resolved.toEscapedColumn c value)) := fun connector c => by
    rw [Criteria.compareEach, compileCriteria, compileAll_compareEach hresolved]
    rfl
  refine ⟨_, _, _, _, hleaf false, hgroup .or .equal, hleaf true, hgroup .and .notEqual, ?_⟩
  intro row
  rw [holds_groupPredicate_or (by simpa using hne), holds_groupPredicate_and, List.any_map,
    List.all_map]
  refine ⟨holds_isIn_eq_any, ?_, holds_isIn_eq_all_iff hne⟩
  exact fun hdiffer => ((all_notEqual_iff row resolved.toEscapedColumn hne).mp hdiffer).1

/-- A text and a number, of which a row may equal the second and is never comparable with both. -/
theorem membership_agrees_iff_mixed :
    memberScope.registry.resolve "name" = .ok ⟨"members", "full_name"⟩ ∧
      [Scalar.text "a", .int 1] ≠ [] ∧
      ∃ among equal outside differ,
        memberScope.compileCriteria Condition.backend
          (.leaf "name" (.membership false) (.many [.text "a", .int 1])) = .ok among ∧
        memberScope.compileCriteria Condition.backend
          (.compareEach .or "name" .equal [.text "a", .int 1]) = .ok equal ∧
        memberScope.compileCriteria Condition.backend
          (.leaf "name" (.membership true) (.many [.text "a", .int 1])) = .ok outside ∧
        memberScope.compileCriteria Condition.backend
          (.compareEach .and "name" .notEqual [.text "a", .int 1]) = .ok differ ∧
        ∀ row : Row, among.holds row = equal.holds row ∧
          (differ.holds row = true → outside.holds row = true) ∧
          (outside.holds row = differ.holds row ↔
            ∀ actual, row.get? ⟨"members", "full_name"⟩ = some actual →
              (∃ value ∈ [Scalar.text "a", .int 1], actual.compare? value = some .eq) ∨
                ∀ value ∈ [Scalar.text "a", .int 1], actual.compare? value ≠ none) :=
  ⟨rfl, List.cons_ne_nil _ _, membership_agrees_iff memberScope "name" ⟨"members", "full_name"⟩
    [.text "a", .int 1] rfl (List.cons_ne_nil _ _)⟩

/-- A row with a number is outside a list of one text, and does not differ from that text. -/
theorem membership_differs_of_incomparable :
    ∃ outside differ,
      memberScope.compileCriteria Condition.backend
        (.leaf "name" (.membership true) (.many [.text "x"])) = .ok outside ∧
      memberScope.compileCriteria Condition.backend
        (.compareEach .and "name" .notEqual [.text "x"]) = .ok differ ∧
      ∃ row : Row, outside.holds row = true ∧ differ.holds row = false :=
  ⟨_, _, rfl, rfl, SortedMap.ofList [(⟨"members", "full_name"⟩, .int 1)], rfl, rfl⟩

end Scope

end CriteriaQuery
