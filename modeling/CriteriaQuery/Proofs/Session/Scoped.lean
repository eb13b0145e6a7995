import CriteriaQuery.Compile.Condition
import CriteriaQuery.Proofs.Session.Names

/-!
# Statements in scope

Every query that is compiled in a session asks for columns of tables that it joins, and joins each
table once, to one that stands before it. Of an SQL statement this is said of what is read off its
text, of a condition of the compiled parts.

## Implementation notes

A column that some name resolves to is one of a table of the graph. The links of the graph stand
in the order of the joins, so the tables before a join are those that are connected when its link
is made.
-/

namespace CriteriaQuery

namespace Sql

namespace Predicate

variable {α β : Type}

mutual

/-- The columns that are tested, in the order of the text. -/
def columns : Predicate α → List ColumnRef
  | .always => []
  | .never => []
  | .all parts => columnsAll parts
  | .any parts => columnsAll parts
  | .compare column _ _ => [column]
  | .isNull column _ => [column]
  | .isIn column _ _ => [column]
  | .like column _ => [column]

def columnsAll : List (Predicate α) → List ColumnRef
  | [] => []
  | p :: ps => columns p ++ columnsAll ps

end

mutual

theorem columns_map (f : α → β) : ∀ p : Predicate α, (p.map f).columns = p.columns
  | .always | .never | .compare .. | .isNull .. | .isIn .. | .like .. => rfl
  | .all parts | .any parts => columnsAll_mapAll f parts

theorem columnsAll_mapAll (f : α → β) :
    ∀ ps : List (Predicate α), columnsAll (mapAll f ps) = columnsAll ps
  | [] => rfl
  | p :: ps => by rw [mapAll, columnsAll, columnsAll, columns_map f p, columnsAll_mapAll f ps]

end

end Predicate

end Sql

namespace Condition

mutual

/-- The columns that are tested, in the order of the display form. -/
def columns : Condition → List ColumnRef
  | .always => []
  | .never => []
  | .all parts => columnsAll parts
  | .any parts => columnsAll parts
  | .compare column _ _ => [column.column]
  | .isNull column _ => [column.column]
  | .isIn column _ _ => [column.column]
  | .like column _ _ => [column.column]

def columnsAll : List Condition → List ColumnRef
  | [] => []
  | c :: cs => columns c ++ columnsAll cs

end

end Condition

namespace Sql

mutual

/-- A tree and a condition that say the same test the same columns. -/
theorem columns_of_agrees :
    ∀ {p : Predicate Scalar} {c : Condition}, Agrees p c → p.columns = c.columns
  | .all _, _, .all h => columnsAll_of_agrees h
  | .any _, _, .any h => columnsAll_of_agrees h
  | _, _, .always | _, _, .never | _, _, .compare .. | _, _, .isNull .. | _, _, .isIn ..
  | _, _, .like .. => rfl

theorem columnsAll_of_agrees : ∀ {ps : List (Predicate Scalar)} {cs : List Condition},
    List.Forall₂ Agrees ps cs → Predicate.columnsAll ps = Condition.columnsAll cs
  | [], _, .nil => rfl
  | _ :: _, _, .cons h hs => by
      rw [Predicate.columnsAll, Condition.columnsAll, columns_of_agrees h, columnsAll_of_agrees hs]

end

end Sql

namespace Scope

variable {s : Scope}

/-- Columns that names resolve to. -/
def Resolved (s : Scope) (columns : List ColumnRef) : Prop :=
  ∀ column ∈ columns, ∃ name, s.registry.resolve name = .ok column

theorem resolved_nil (s : Scope) : s.Resolved [] := by
  intro column h
  simp at h

theorem resolved_append {columns columns' : List ColumnRef} (h : s.Resolved columns)
    (h' : s.Resolved columns') : s.Resolved (columns ++ columns') := by
  intro column hcolumn
  rcases List.mem_append.mp hcolumn with hcolumn | hcolumn
  · exact h column hcolumn
  · exact h' column hcolumn

theorem resolved_singleton {field : String} {column : ResolvedColumn}
    (h : s.resolve field = .ok column) : s.Resolved [column.column] := by
  intro ref href
  obtain rfl := List.mem_singleton.mp href
  exact ⟨field, (exists_column_of_resolve h).1⟩

theorem resolved_of_mapM {names : List String} {columns : List ColumnRef}
    (h : names.mapM s.registry.resolve = .ok columns) : s.Resolved columns := by
  intro column hcolumn
  obtain ⟨name, -, hname⟩ := exists_of_mem_mapM h hcolumn
  exact ⟨name, hname⟩

theorem resolved_sortedColumns (keys : List SortKey) :
    s.Resolved ((s.sortedColumns keys).map (·.1.column)) := by
  intro column hcolumn
  obtain ⟨k, hk, rfl⟩ := List.mem_map.mp hcolumn
  obtain ⟨key, -, hsorts⟩ := exists_sorts_of_mem hk
  exact ⟨key.field, (exists_column_of_resolve hsorts.1).1⟩

theorem resolved_columnsAll {parts parts' : List Condition}
    (h : List.Forall₂ (fun c _ => s.Resolved c.columns) parts parts') :
    s.Resolved (Condition.columnsAll parts) := by
  induction h with
  | nil => exact resolved_nil s
  | cons hfirst _ ih => exact resolved_append hfirst ih

/-- Operation by operation, a condition tests columns that names resolve to. -/
theorem resolved_inStep (s : Scope) :
    Condition.backend.InStep s (fun c _ => s.Resolved c.columns) Condition.backend where
  alwaysTrue := resolved_nil s
  alwaysFalse := resolved_nil s
  combine := by
    intro c parts parts' h _
    cases c with
    | and => exact resolved_columnsAll h
    | or => exact resolved_columnsAll h
  compare := fun _ _ h _ _ => resolved_singleton h
  nullTest := fun _ _ h _ => resolved_singleton h
  membership := fun _ _ h _ _ _ => resolved_singleton h
  pattern := fun _ _ h _ _ => resolved_singleton h

theorem resolved_of_compileCriteria {tree : Criteria} {c : Condition}
    (h : s.compileCriteria Condition.backend tree = .ok c) : s.Resolved c.columns := by
  rcases (compileCriteria_inStep (resolved_inStep s) tree).exists_ok with
    ⟨c₁, -, hc₁, -, hresolved⟩ | ⟨e, he, -⟩
  · obtain rfl : c₁ = c := Except.ok.inj (hc₁.symm.trans h)
    exact hresolved
  · simp [h] at he

end Scope

/-- No field and no alias of a table holds a point. -/
def Catalog.Undotted (c : Catalog) : Prop :=
  ∀ t ∈ c.tables, ∀ name ∈ t.registration.names, CriteriaQuery.Undotted name

/-- A statement joins each table once, to a table that stands before it, by a column of each, and
asks for columns of its tables only. -/
structure WellScoped (root : String) (joins : List Join) (columns : List ColumnRef) : Prop where
  distinct : (root :: joins.map (·.table)).Nodup
  right : ∀ j ∈ joins, j.right.table = j.table
  left : ∀ i j, joins[i]? = some j → j.left.table ∈ root :: (joins.take i).map (·.table)
  columns : ∀ column ∈ columns, column.table ∈ root :: joins.map (·.table)

/-- If the names of a sound table hold no point, those that its aliases stand for hold none. -/
theorem TableNode.Sound.undotted {t : TableNode} (h : t.Sound)
    (hnames : ∀ name ∈ t.registration.names, Undotted name) : t.registration.Undotted where
  fields := fun e he => hnames e.1 (Registration.mem_names_of_field he)
  aliases := by
    intro e he
    obtain ⟨column, hcolumn⟩ := h.targets e he
    have htarget : e.2 ∈ t.registration.names :=
      Registration.mem_names_of_field (SortedMap.mem_entries_iff.mpr hcolumn)
    exact ⟨hnames e.1 (Registration.mem_names_of_alias he), hnames e.2 htarget⟩

namespace Session

namespace Over

variable {c : Catalog} {source : String} {d : JoinDescription} {s : Session}

theorem apart (h : s.Over c source d) (hundotted : c.Undotted) :
    ∀ a ∈ s.graph.registrations, ∀ b ∈ s.graph.registrations, a.table ≠ b.table → a.Apart b := by
  have hregistrations : ∀ g ∈ s.graph.registrations, g.Undotted := by
    intro g hg
    obtain ⟨n, hn, rfl⟩ := List.mem_map.mp hg
    exact (h.sound hn).undotted (hundotted n (h.spans.mem_tables hn))
  intro a ha b hb hne
  exact (hregistrations a ha).apart (hregistrations b hb) hne

/-- What stands for a name of a table means a column of that table, if it means any. -/
theorem table_of_resolve (h : s.Over c source d) (hundotted : c.Undotted) {n : TableNode}
    (hn : n ∈ s.graph.nodes) {name field : String} (hname : n.canonicalField? name = some field)
    {column : ColumnRef}
    (hcolumn : s.registry.resolve (ColumnRef.qualify n.table field) = .ok column) :
    column.table = n.table := by
  obtain ⟨own, hown⟩ := (h.sound hn).exists_field hname
  have hfield : field ∈ n.registration.mentions :=
    List.mem_append_left _ (Registration.mem_names_of_field (SortedMap.mem_entries_iff.mpr hown))
  obtain ⟨hguarded, -⟩ :=
    AliasRegistry.guarded_of_registered h.registered (h.apart hundotted) fun _ => id
  have howned := hguarded n.registration (List.mem_map_of_mem hn) field hfield
  exact howned.own column (AliasRegistry.resolve_eq_ok_iff.mp hcolumn)

/-- A join has the tables of its link. -/
theorem tables_of_join (h : s.Over c source d) (hundotted : c.Undotted) {l : JoinLink}
    (hl : l ∈ s.graph.links) {j : Join} (hj : s.join l = .ok j) :
    j.table = l.right.table ∧ j.left.table = l.left.table ∧ j.right.table = l.right.table := by
  obtain ⟨connected, spec, hlinks⟩ := h.spans.links.exists_links hl
  obtain ⟨left, hleft, hj⟩ := bind_eq_ok_iff.mp hj
  obtain ⟨right, hright, hj⟩ := bind_eq_ok_iff.mp hj
  obtain rfl := pure_eq_ok_iff.mp hj
  rw [hlinks.fromTable] at hleft
  rw [hlinks.toTable] at hright
  exact ⟨rfl, h.table_of_resolve hundotted (h.left_mem hl) hlinks.fromField hleft,
    h.table_of_resolve hundotted (h.right_mem hl) hlinks.toField hright⟩

theorem wellScoped (h : s.Over c source d) (hundotted : c.Undotted) {joins : List Join}
    (hjoins : s.graph.links.mapM s.join = .ok joins) {columns : List ColumnRef}
    (hcolumns : s.Resolved columns) : WellScoped s.graph.root.table joins columns := by
  obtain ⟨hnodup, hlefts⟩ := h.spans.scoped
  have htables : joins.map (·.table) = s.graph.links.map (·.right.table) :=
    map_eq_of_mapM (fun l hl j hj => (h.tables_of_join hundotted hl hj).1) hjoins
  have hleftTables : joins.map (·.left.table) = s.graph.links.map (·.left.table) :=
    map_eq_of_mapM (fun l hl j hj => (h.tables_of_join hundotted hl hj).2.1) hjoins
  constructor
  · rw [htables]
    exact hnodup
  · intro j hj
    obtain ⟨l, hl, hlj⟩ := exists_of_mem_mapM hjoins hj
    obtain ⟨htable, -, hright⟩ := h.tables_of_join hundotted hl hlj
    rw [htable, hright]
  · intro i j hj
    have hsome : (s.graph.links.map (·.left.table))[i]? = some j.left.table := by
      rw [← hleftTables, List.getElem?_map, hj]
      rfl
    rw [List.getElem?_map] at hsome
    obtain ⟨l, hl, hleft⟩ := Option.map_eq_some_iff.mp hsome
    rw [List.map_take, htables, ← List.map_take, ← hleft]
    exact hlefts i l hl
  · intro column hcolumn
    obtain ⟨name, hname⟩ := hcolumns column hcolumn
    rw [htables]
    apply AliasRegistry.within_of_registered h.registered _ name column
      (AliasRegistry.resolve_eq_ok_iff.mp hname)
    intro g hg
    obtain ⟨n, hn, rfl⟩ := List.mem_map.mp hg
    exact h.spans.table_mem hn

/-- The SQL text of a document that compiles is read as a statement in scope. -/
theorem wellScoped_statement (h : s.Over c source d) (hundotted : c.Undotted) {doc : Document}
    {q : Compiled SqlFragment String} (hq : s.compile Sql.backend doc = .ok q) :
    ∃ clauses predicate, Sql.readStatement (Sql.select q).text = some clauses ∧
      Sql.readPredicate s.dialect clauses.predicate = some predicate ∧
      WellScoped clauses.root clauses.joins
        (clauses.columns ++ predicate.columns ++ clauses.order.map Prod.fst) := by
  obtain ⟨clauses, hclauses, hrenders⟩ := Scope.exists_renders hq
  have hread := hrenders.readStatement_eq
  obtain ⟨joins, hjoins, hclauses⟩ := bind_eq_ok_iff.mp hclauses
  obtain ⟨columns, hcolumns, hclauses⟩ := bind_eq_ok_iff.mp hclauses
  obtain ⟨f, hf, hclauses⟩ := bind_eq_ok_iff.mp hclauses
  obtain rfl := pure_eq_ok_iff.mp hclauses
  obtain ⟨condition, p, hcondition, hwrites, hagrees⟩ :=
    Sql.exists_writes_of_compileCriteria hf
  have hpredicate : s.Resolved p.shape.columns := by
    rw [Sql.Predicate.shape, Sql.Predicate.columns_map, Sql.columns_of_agrees hagrees]
    exact Scope.resolved_of_compileCriteria hcondition
  refine ⟨_, p.shape, hread, hwrites.readPredicate_eq, ?_⟩
  apply h.wellScoped hundotted (Scope.lift_eq_ok_iff.mp hjoins)
  apply Scope.resolved_append (Scope.resolved_append _ hpredicate)
  · rw [List.map_map]
    exact Scope.resolved_sortedColumns doc.sorter
  · exact Scope.resolved_of_mapM (Scope.lift_eq_ok_iff.mp hcolumns)

/-- The parts of a condition that a document is compiled to are in scope. -/
theorem wellScoped_condition (h : s.Over c source d) (hundotted : c.Undotted) {doc : Document}
    {q : Compiled Condition SortField} (hq : s.compile Condition.backend doc = .ok q) :
    ∃ joins, q.source = s.dialect.escapeIdentifier s.graph.root.table ∧
      q.joins = joins.map (Sql.writtenJoin s.dialect) ∧
      WellScoped s.graph.root.table joins (q.projection.map (·.column) ++ q.predicate.columns ++
        q.orderBy.map (·.column.column)) := by
  obtain ⟨clauses, hclauses, hq⟩ := bind_eq_ok_iff.mp hq
  obtain ⟨projection, hprojection, hq⟩ := bind_eq_ok_iff.mp hq
  obtain ⟨predicate, hpredicate, hq⟩ := bind_eq_ok_iff.mp hq
  obtain rfl := pure_eq_ok_iff.mp hq
  obtain ⟨joins, hjoins, rfl⟩ :=
    Scope.exists_joins_of_joinClauses (Scope.lift_eq_ok_iff.mp hclauses)
  obtain ⟨hcolumns, -⟩ :=
    Scope.exists_columns_of_resolveAll (Scope.lift_eq_ok_iff.mp hprojection)
  refine ⟨joins, rfl, rfl, ?_⟩
  apply h.wellScoped hundotted hjoins
  apply Scope.resolved_append (Scope.resolved_append _ _)
  · rw [List.map_map]
    exact Scope.resolved_sortedColumns doc.sorter
  · exact Scope.resolved_of_mapM hcolumns
  · exact Scope.resolved_of_compileCriteria hpredicate

end Over

/-- Over a valid catalog whose names hold no point, whatever compiles is in scope: the SQL
statement, as it is read off its text, and the condition with the parts beside it. -/
theorem wellScoped_of_compile (c : Catalog) (source : String) (d : JoinDescription)
    (dialect : Dialect) (limits : PageLimits) (s : Session) (hvalid : c.validate = .ok ())
    (hundotted : c.Undotted) (hbuild : (build c.load source d dialect limits).1 = .ok s)
    (doc : Document) :
    (∀ q, s.compile Sql.backend doc = .ok q →
      ∃ clauses predicate, Sql.readStatement (Sql.select q).text = some clauses ∧
        Sql.readPredicate s.dialect clauses.predicate = some predicate ∧
        WellScoped clauses.root clauses.joins
          (clauses.columns ++ predicate.columns ++ clauses.order.map Prod.fst)) ∧
    ∀ q, s.compile Condition.backend doc = .ok q →
      ∃ joins, q.source = s.dialect.escapeIdentifier s.graph.root.table ∧
        q.joins = joins.map (Sql.writtenJoin s.dialect) ∧
        WellScoped s.graph.root.table joins (q.projection.map (·.column) ++ q.predicate.columns ++
          q.orderBy.map (·.column.column)) := by
  have hover := over_of_build hvalid hbuild
  constructor
  · intro q hq
    exact hover.wellScoped_statement hundotted hq
  · intro q hq
    exact hover.wellScoped_condition hundotted hq

/-- Tables that are joined in a chain, one of them under a name that has to be quoted. -/
def chainCatalog : Catalog where
  root := "Customer"
  tables := [
    ⟨"Item", "items", SortedMap.ofList [("order", "order_id"), ("sku", "sku")], ∅⟩,
    ⟨"Order", "order", SortedMap.ofList [("id", "id"), ("owner", "customer_id")],
      SortedMap.ofList [("buyer", "owner")]⟩,
    ⟨"Customer", "crm.customers", SortedMap.ofList [("id", "pk"), ("name", "full name")], ∅⟩]
  joins := [⟨⟨"Customer", "id"⟩, ⟨"Order", "buyer"⟩, .inner⟩,
    ⟨⟨"Order", "id"⟩, ⟨"Item", "order"⟩, .left⟩]

def chainDocument : Document where
  criteria := .group .or [.leaf "sku" (.comparison .equal) (.one (.text "?")),
    .leaf "order.id" (.nullTest true) .absent]
  sorter := [⟨"buyer", .descending⟩]
  projection := ["name", "crm.customers.id"]

theorem wellScoped_of_compile_chain :
    chainCatalog.validate = .ok () ∧ chainCatalog.Undotted ∧ ∃ s,
      (build chainCatalog.load "default" chainCatalog.joinDescription .postgres {}).1 = .ok s ∧
      (∃ q, s.compile Sql.backend chainDocument = .ok q ∧
        ∃ clauses predicate, Sql.readStatement (Sql.select q).text = some clauses ∧
          Sql.readPredicate s.dialect clauses.predicate = some predicate ∧
          WellScoped clauses.root clauses.joins
            (clauses.columns ++ predicate.columns ++ clauses.order.map Prod.fst)) ∧
      ∃ q, s.compile Condition.backend chainDocument = .ok q ∧
        ∃ joins, q.source = s.dialect.escapeIdentifier s.graph.root.table ∧
          q.joins = joins.map (Sql.writtenJoin s.dialect) ∧
          WellScoped s.graph.root.table joins (q.projection.map (·.column) ++
            q.predicate.columns ++ q.orderBy.map (·.column.column)) := by
  have hundotted : chainCatalog.Undotted := by
    unfold Catalog.Undotted
    decide
  obtain ⟨s, hbuild, ⟨q, hq⟩, q', hq'⟩ : ∃ s,
      (build chainCatalog.load "default" chainCatalog.joinDescription .postgres {}).1 = .ok s ∧
      (∃ q, s.compile Sql.backend chainDocument = .ok q) ∧
      ∃ q, s.compile Condition.backend chainDocument = .ok q := ⟨_, rfl, ⟨_, rfl⟩, _, rfl⟩
  obtain ⟨hsql, hcondition⟩ := wellScoped_of_compile chainCatalog "default"
    chainCatalog.joinDescription .postgres {} s rfl hundotted hbuild chainDocument
  exact ⟨rfl, hundotted, s, hbuild, ⟨q, hq, hsql q hq⟩, q', hq', hcondition q' hq'⟩

end Session

end CriteriaQuery
