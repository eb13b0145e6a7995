import CriteriaQuery.Compile.Sql
import CriteriaQuery.Proofs.Outcome
import CriteriaQuery.Session.Basic
import Mathlib.Data.List.FinRange
import Mathlib.Data.List.Forall2
import Mathlib.Data.List.Indexes

/-!
# Sort keys

A query is sorted by those of its sort keys that lead: their names resolve, and no key before them
means the same column, by whatever name. Every other key is accounted for by one warning. Keys and
warnings stand in the order of the document.

## Implementation notes

Keys are compiled one after the other with the columns sorted by so far. These are the columns of
all keys before that resolve, the repeated ones included, so what becomes of a key is told from the
keys in front of it.
-/

namespace CriteriaQuery

/-- What is picked from the images of a list are images of the part that it is picked from. -/
theorem forall₂_filter_filterMap {α β γ : Type} {f : α → β} {g : β → Option γ} {R : α → γ → Prop}
    {p : α → Bool} (htrue : ∀ a, p a = true → ∃ c, g (f a) = some c ∧ R a c)
    (hfalse : ∀ a, p a = false → g (f a) = none) (as : List α) :
    List.Forall₂ R (as.filter p) ((as.map f).filterMap g) := by
  induction as with
  | nil => exact .nil
  | cons a as ih =>
      rw [List.map_cons, List.filterMap_cons, List.filter_cons]
      cases hp : p a with
      | true =>
          obtain ⟨c, hc, hR⟩ := htrue a hp
          rw [hc]
          exact .cons hR ih
      | false =>
          rw [hfalse a hp]
          exact ih

/-- A key is kept or dropped, and never both. -/
theorem SortOutcome.length_kept_add_length_warnings (outcomes : List SortOutcome) :
    (outcomes.filterMap kept?).length + (outcomes.filterMap warning?).length = outcomes.length := by
  induction outcomes with
  | nil => rfl
  | cons o outcomes ih =>
      cases o with
      | kept column direction =>
          simp only [List.filterMap_cons, kept?, warning?, List.length_cons]
          omega
      | dropped w =>
          simp only [List.filterMap_cons, kept?, warning?, List.length_cons]
          omega

namespace Scope

variable {P O : Type} {s : Scope}

/-- The column that a sort key means, if its name resolves. -/
def keyColumn? (s : Scope) (key : SortKey) : Option ColumnRef :=
  (s.resolve key.field).toOption.map (·.column)

/-- The columns and directions that sort keys come to. -/
def sortedColumns (s : Scope) (keys : List SortKey) : List (ResolvedColumn × SortDirection) :=
  (s.sortOutcomes [] keys).filterMap SortOutcome.kept?

/-- The warnings about sort keys. -/
def sortWarnings (s : Scope) (keys : List SortKey) : List CompileWarning :=
  (s.sortOutcomes [] keys).filterMap SortOutcome.warning?

/-- A column and a direction are those that a sort key asks for. -/
def Sorts (s : Scope) (key : SortKey) (k : ResolvedColumn × SortDirection) : Prop :=
  s.resolve key.field = .ok k.1 ∧ k.2 = key.direction

/-- A warning says why a sort key is left out. -/
inductive Warns (s : Scope) (key : SortKey) : CompileWarning → Prop
  | unresolved {e : CatalogError} (h : s.resolve key.field = .error e) :
      Warns s key (.unresolvedSortField key.field e)
  | duplicate {column : ResolvedColumn} (h : s.resolve key.field = .ok column) :
      Warns s key (.duplicateSortField key.field)

/-! ### One key -/

/-- What becomes of a sort key behind others. -/
def outcomeAfter (s : Scope) (before : List SortKey) (key : SortKey) : SortOutcome :=
  match s.resolve key.field with
  | .error e => .dropped (.unresolvedSortField key.field e)
  | .ok column =>
    if column.column ∈ before.filterMap s.keyColumn? then .dropped (.duplicateSortField key.field)
    else .kept column key.direction

/-- A key that is kept stands for its own column and direction. -/
theorem sorts_of_outcomeAfter {before : List SortKey} {key : SortKey}
    {k : ResolvedColumn × SortDirection} (h : (s.outcomeAfter before key).kept? = some k) :
    s.Sorts key k := by
  unfold outcomeAfter at h
  split at h
  · simp [SortOutcome.kept?] at h
  · next column hcolumn =>
      split at h
      · simp [SortOutcome.kept?] at h
      · obtain rfl := Option.some.inj h
        exact ⟨hcolumn, rfl⟩

/-- The columns sorted by so far are those of the keys so far. -/
def Seen (s : Scope) (before : List SortKey) (seen : List ColumnRef) : Prop :=
  ∀ column, column ∈ seen ↔ column ∈ before.filterMap s.keyColumn?

theorem keyColumn?_of_error {key : SortKey} {e : CatalogError} (h : s.resolve key.field = .error e) :
    s.keyColumn? key = none := by
  rw [keyColumn?, h]
  rfl

theorem keyColumn?_of_ok {key : SortKey} {column : ResolvedColumn}
    (h : s.resolve key.field = .ok column) : s.keyColumn? key = some column.column := by
  rw [keyColumn?, h]
  rfl

/-- The first key becomes what it becomes behind the keys before, and the others follow it. -/
theorem Seen.exists_sortOutcomes_cons {before : List SortKey} {seen : List ColumnRef}
    (h : s.Seen before seen) (key : SortKey) (rest : List SortKey) :
    ∃ seen', s.Seen (before ++ [key]) seen' ∧
      s.sortOutcomes seen (key :: rest) = s.outcomeAfter before key :: s.sortOutcomes seen' rest := by
  rw [sortOutcomes, outcomeAfter]
  cases hresolve : s.resolve key.field with
  | error e =>
      refine ⟨seen, ?_, rfl⟩
      simpa [Seen, keyColumn?_of_error hresolve] using h
  | ok column =>
      have hcolumn := keyColumn?_of_ok hresolve
      simp only [← h column.column]
      split
      · next hseen =>
          -- a repeated key brings no new column
          refine ⟨seen, fun c => ?_, rfl⟩
          rw [h c, List.filterMap_append, List.mem_append]
          constructor
          · exact Or.inl
          · rintro (hc | hc)
            · exact hc
            · obtain rfl : c = column.column := by simpa [hcolumn] using hc
              exact (h _).mp hseen
      · refine ⟨column.column :: seen, fun c => ?_, rfl⟩
        simp [List.filterMap_append, hcolumn, h c, or_comm]

/-! ### All keys -/

/-- What becomes of each of the keys is told from those in front of it. -/
theorem Seen.sortOutcomes_eq {before : List SortKey} {seen : List ColumnRef}
    (h : s.Seen before seen) (keys : List SortKey) :
    s.sortOutcomes seen keys =
      keys.mapIdx fun i key => s.outcomeAfter (before ++ keys.take i) key := by
  induction keys generalizing before seen with
  | nil => rfl
  | cons key rest ih =>
      obtain ⟨seen', hseen', hcons⟩ := h.exists_sortOutcomes_cons key rest
      rw [hcons, ih hseen', List.mapIdx_cons]
      simp

theorem sortOutcomes_eq_map (s : Scope) (keys : List SortKey) :
    s.sortOutcomes [] keys =
      (List.finRange keys.length).map fun i : Fin keys.length =>
        s.outcomeAfter (keys.take i) keys[i] := by
  have hseen : s.Seen [] [] := fun _ => by simp
  rw [hseen.sortOutcomes_eq, List.mapIdx_eq_ofFn, List.ofFn_eq_map]
  rfl

theorem exists_sorts_of_mem {keys : List SortKey} {k : ResolvedColumn × SortDirection}
    (h : k ∈ s.sortedColumns keys) : ∃ key ∈ keys, s.Sorts key k := by
  rw [sortedColumns, sortOutcomes_eq_map] at h
  obtain ⟨o, ho, hk⟩ := List.mem_filterMap.mp h
  obtain ⟨i, -, rfl⟩ := List.mem_map.mp ho
  exact ⟨keys[i], List.getElem_mem i.isLt, sorts_of_outcomeAfter hk⟩

/-! ### Leading keys -/

/-- A sort key resolves, and no key before it means its column. -/
def Leads (s : Scope) (keys : List SortKey) (i : Fin keys.length) : Prop :=
  s.keyColumn? keys[i] ≠ none ∧ ∀ j < i, s.keyColumn? keys[j] ≠ s.keyColumn? keys[i]

instance (keys : List SortKey) : DecidablePred (s.Leads keys) :=
  fun _ => inferInstanceAs (Decidable (_ ∧ _))

/-- The sort keys that lead, in order. -/
def leading (s : Scope) (keys : List SortKey) : List SortKey :=
  ((List.finRange keys.length).filter fun i => s.Leads keys i).map keys.get

/-- All other sort keys, in order. -/
def leftOut (s : Scope) (keys : List SortKey) : List SortKey :=
  ((List.finRange keys.length).filter fun i => ¬ s.Leads keys i).map keys.get

theorem mem_columns_take_iff {keys : List SortKey} {i : Fin keys.length} {column : ColumnRef} :
    column ∈ (keys.take i).filterMap s.keyColumn? ↔
      ∃ j < i, s.keyColumn? keys[j] = some column := by
  rw [List.mem_filterMap]
  constructor
  · rintro ⟨key, hkey, hcolumn⟩
    obtain ⟨j, hj, rfl⟩ := List.mem_take_iff_getElem.mp hkey
    exact ⟨⟨j, by omega⟩, by simp only [Fin.lt_def]; omega, hcolumn⟩
  · rintro ⟨j, hj, hcolumn⟩
    exact ⟨keys[j], List.mem_take_iff_getElem.mpr ⟨j, by omega, rfl⟩, hcolumn⟩

/-- A key that leads is kept, with its own column and direction. -/
theorem Leads.outcomeAfter_eq {keys : List SortKey} {i : Fin keys.length} (h : s.Leads keys i) :
    ∃ column, s.resolve keys[i].field = .ok column ∧
      s.outcomeAfter (keys.take i) keys[i] = .kept column keys[i].direction := by
  obtain ⟨hsome, hfirst⟩ := h
  cases hresolve : s.resolve keys[i].field with
  | error e => exact absurd (keyColumn?_of_error hresolve) hsome
  | ok column =>
      refine ⟨column, rfl, ?_⟩
      have hnew : column.column ∉ (keys.take i).filterMap s.keyColumn? := by
        rw [mem_columns_take_iff]
        rintro ⟨j, hj, hcolumn⟩
        exact hfirst j hj (hcolumn.trans (keyColumn?_of_ok hresolve).symm)
      simp only [outcomeAfter, hresolve, if_neg hnew]

/-- A key that does not lead is left out, with a warning that says why. -/
theorem exists_outcomeAfter_dropped {keys : List SortKey} {i : Fin keys.length}
    (h : ¬ s.Leads keys i) :
    ∃ w, s.Warns keys[i] w ∧ s.outcomeAfter (keys.take i) keys[i] = .dropped w := by
  cases hresolve : s.resolve keys[i].field with
  | error e =>
      refine ⟨_, .unresolved hresolve, ?_⟩
      simp only [outcomeAfter, hresolve]
  | ok column =>
      have hcolumn := keyColumn?_of_ok hresolve
      have hold : column.column ∈ (keys.take i).filterMap s.keyColumn? := by
        by_contra hnew
        rw [mem_columns_take_iff] at hnew
        exact h ⟨hcolumn ▸ Option.some_ne_none _, fun j hj heq => hnew ⟨j, hj, heq.trans hcolumn⟩⟩
      refine ⟨_, .duplicate hresolve, ?_⟩
      simp only [outcomeAfter, hresolve, if_pos hold]

/-- No two keys that lead mean one column. -/
theorem nodup_columns_leading (s : Scope) (keys : List SortKey) :
    ((s.leading keys).map s.keyColumn?).Nodup := by
  rw [leading, List.map_map, List.Nodup, List.pairwise_map]
  -- of two places in order, the second leads only if the first means another column
  apply ((List.pairwise_lt_finRange keys.length).filter _).imp_of_mem
  intro i j _ hj hlt
  have hleads : s.Leads keys j := by simpa using (List.mem_filter.mp hj).2
  exact hleads.2 i hlt

theorem map_keyColumn?_of_sorts {keys : List SortKey} {kept : List (ResolvedColumn × SortDirection)}
    (h : List.Forall₂ s.Sorts keys kept) :
    keys.map s.keyColumn? = (kept.map fun k => k.1.column).map some := by
  induction h with
  | nil => rfl
  | cons hsorts _ ih => simp [keyColumn?_of_ok hsorts.1, ih]

/-! ### Accounts -/

/-- Columns and warnings account for sort keys: a column for each key that leads, no column twice,
and a warning for each other key. -/
structure Accounts (s : Scope) (keys : List SortKey)
    (kept : List (ResolvedColumn × SortDirection)) (warnings : List CompileWarning) : Prop where
  sorted : List.Forall₂ s.Sorts (s.leading keys) kept
  distinct : (kept.map fun k => k.1.column).Nodup
  warned : List.Forall₂ s.Warns (s.leftOut keys) warnings
  count : kept.length + warnings.length = keys.length

theorem sorts_sortedColumns (s : Scope) (keys : List SortKey) :
    List.Forall₂ s.Sorts (s.leading keys) (s.sortedColumns keys) := by
  rw [leading, List.forall₂_map_left_iff, sortedColumns, sortOutcomes_eq_map]
  apply forall₂_filter_filterMap
  · intro i hi
    obtain ⟨column, hcolumn, houtcome⟩ := (of_decide_eq_true hi).outcomeAfter_eq
    exact ⟨(column, keys[i].direction), by rw [houtcome]; rfl, hcolumn, rfl⟩
  · intro i hi
    obtain ⟨w, -, houtcome⟩ := exists_outcomeAfter_dropped (of_decide_eq_false hi)
    rw [houtcome]
    rfl

theorem warns_sortWarnings (s : Scope) (keys : List SortKey) :
    List.Forall₂ s.Warns (s.leftOut keys) (s.sortWarnings keys) := by
  rw [leftOut, List.forall₂_map_left_iff, sortWarnings, sortOutcomes_eq_map]
  apply forall₂_filter_filterMap
  · intro i hi
    obtain ⟨w, hwarns, houtcome⟩ := exists_outcomeAfter_dropped (of_decide_eq_true hi)
    exact ⟨w, by rw [houtcome]; rfl, hwarns⟩
  · intro i hi
    obtain ⟨column, -, houtcome⟩ := (not_not.mp (of_decide_eq_false hi)).outcomeAfter_eq
    rw [houtcome]
    rfl

theorem accounts_sortOutcomes (s : Scope) (keys : List SortKey) :
    s.Accounts keys (s.sortedColumns keys) (s.sortWarnings keys) where
  sorted := s.sorts_sortedColumns keys
  distinct := by
    apply List.Nodup.of_map some
    rw [← map_keyColumn?_of_sorts (s.sorts_sortedColumns keys)]
    exact s.nodup_columns_leading keys
  warned := s.warns_sortWarnings keys
  count := by
    rw [sortedColumns, sortWarnings, SortOutcome.length_kept_add_length_warnings,
      sortOutcomes_eq_map, List.length_map, List.length_finRange]

/-- Sort keys of a document that compiles may be replaced by any others: it compiles to the same
query but for the keys and the warnings. -/
theorem compile_sorter {b : Backend P O} {d : Document} {q : Compiled P O}
    (h : s.compile b d = .ok q) (keys : List SortKey) :
    s.compile b { d with sorter := keys } = .ok { q with
      orderBy := (s.sortedColumns keys).map fun k => b.order k.1 k.2
      warnings := s.sortWarnings keys } := by
  obtain ⟨joins, hjoins, h⟩ := bind_eq_ok_iff.mp h
  obtain ⟨projection, hprojection, h⟩ := bind_eq_ok_iff.mp h
  obtain ⟨predicate, hpredicate, h⟩ := bind_eq_ok_iff.mp h
  obtain rfl := pure_eq_ok_iff.mp h
  rw [compile, hjoins, hprojection, hpredicate]
  rfl

/-- Whatever a document is compiled for and whatever its sort keys are: it is sorted by the keys
that lead, each in its own direction and no column twice, and there is one warning about each other
key. -/
theorem sorter_accounts (s : Scope) (b : Backend P O) (keys : List SortKey) :
    s.Accounts keys (s.sortedColumns keys) (s.sortWarnings keys) ∧
      ∀ d q, s.compile b d = .ok q → s.compile b { d with sorter := keys } = .ok { q with
        orderBy := (s.sortedColumns keys).map fun k => b.order k.1 k.2
        warnings := s.sortWarnings keys } :=
  ⟨s.accounts_sortOutcomes keys, fun _ _ hq => compile_sorter hq keys⟩

/-- Two tables that share a name, one of them with an alias. -/
def sharingCatalog : Catalog where
  root := "Order"
  tables := [
    ⟨"Order", "orders", SortedMap.ofList [("id", "id"), ("owner", "customer_id")],
      SortedMap.ofList [("buyer", "owner")]⟩,
    ⟨"Item", "items", SortedMap.ofList [("id", "id"), ("order", "order_id"), ("sku", "sku")], ∅⟩]
  joins := [⟨⟨"Order", "id"⟩, ⟨"Item", "order"⟩, .inner⟩]

/-- A key, a name that nothing has, a name that two tables share, the first key's column by another
name, and one more key. -/
def mixedKeys : List SortKey :=
  [⟨"buyer", .descending⟩, ⟨"ghost", .ascending⟩, ⟨"id", .ascending⟩, ⟨"orders.owner", .ascending⟩,
    ⟨"sku", .ascending⟩]

theorem sorter_accounts_mixed : ∃ s,
    Session.ofKey sharingCatalog.load (.of "default" sharingCatalog.joinDescription .sql .mysql {}) =
      .ok s ∧
    ((s.sortedColumns mixedKeys).map fun k => (k.1.column, k.2)) =
      [(⟨"orders", "customer_id"⟩, .descending), (⟨"items", "sku"⟩, .ascending)] ∧
    s.sortWarnings mixedKeys =
      [.unresolvedSortField "ghost" (.unresolvedField "ghost"),
        .unresolvedSortField "id" (.ambiguousAlias "id" "items" "orders"),
        .duplicateSortField "orders.owner"] ∧
    s.Accounts mixedKeys (s.sortedColumns mixedKeys) (s.sortWarnings mixedKeys) ∧
    ∃ q, s.compile Sql.backend {} = .ok q ∧
      s.compile Sql.backend { sorter := mixedKeys } = .ok { q with
        orderBy := (s.sortedColumns mixedKeys).map fun k => Sql.backend.order k.1 k.2
        warnings := s.sortWarnings mixedKeys } := by
  refine ⟨_, rfl, rfl, rfl, (sorter_accounts _ Sql.backend mixedKeys).1, _, rfl, ?_⟩
  exact (sorter_accounts _ Sql.backend mixedKeys).2 {} _ rfl

end Scope

end CriteriaQuery
