import CriteriaQuery.Proofs.Catalog.Graph
import CriteriaQuery.Proofs.Registry.Columns
import CriteriaQuery.Proofs.Sql.Rendering
import CriteriaQuery.Session.Basic

/-!
# Names of a session

A session looks names up twice: the join graph turns the name at the end of a join into a field of
its table, and the registry turns the qualified field into a column. Both agree with the columns
that the tables declare, as long as names can be told from qualified ones and no alias takes over a
field with another column.

## Implementation notes

The tables of the graph are registered once each, in the order of the graph. All that is known of
them comes from the catalog.
-/

namespace CriteriaQuery

namespace TableNode

/-- What a table registers. -/
def registration (t : TableNode) : Registration := ⟨t.table, t.fields, t.aliases⟩

/-- The column that a table has for a field or an alias of it. -/
def column? (t : TableNode) (name : String) : Option ColumnRef :=
  (t.canonicalField? name).bind fun field => (t.fields.get? field).map (⟨t.table, ·⟩)

variable {t : TableNode} {name field column : String}

theorem column?_of_canonicalField? (h : t.canonicalField? name = some field)
    (hfield : t.fields.get? field = some column) : t.column? name = some ⟨t.table, column⟩ := by
  simp [column?, h, hfield]

theorem column?_of_field (h : t.fields.get? name = some column) :
    t.column? name = some ⟨t.table, column⟩ := by
  apply column?_of_canonicalField? _ h
  simp [canonicalField?, SortedMap.contains, h]

theorem column?_of_alias (hname : t.fields.get? name = none)
    (h : t.aliases.get? name = some field) (hfield : t.fields.get? field = some column) :
    t.column? name = some ⟨t.table, column⟩ := by
  apply column?_of_canonicalField? _ hfield
  simp [canonicalField?, SortedMap.contains, hname, h]

/-- Of a sound table, what stands for a name is a field. -/
theorem Sound.exists_field (h : t.Sound) (hname : t.canonicalField? name = some field) :
    ∃ column, t.fields.get? field = some column := by
  unfold canonicalField? at hname
  split at hname
  · next hcontains =>
      obtain rfl := Option.some.inj hname
      exact SortedMap.contains_iff_exists.mp hcontains
  · exact h.targets (name, field) (SortedMap.mem_entries_iff.mpr hname)

end TableNode

/-- What the tables of a graph register, in the order in which they are registered. -/
def JoinGraph.registrations (g : JoinGraph) : List Registration := g.nodes.map (·.registration)

namespace Session

theorem registered_of_registerAll {ns : List TableNode} {done : List Registration}
    {r r' : AliasRegistry} (h : AliasRegistry.Registered done r) (hr : registerAll ns r = .ok r') :
    AliasRegistry.Registered (done ++ ns.map (·.registration)) r' := by
  induction ns generalizing done r with
  | nil =>
      obtain rfl : r = r' := by simpa [registerAll] using hr
      simpa using h
  | cons n ns ih =>
      obtain ⟨r₁, hfirst, hrest⟩ := bind_eq_ok_iff.mp hr
      have hmore := ih (h.next (g := n.registration) hfirst) hrest
      simpa using hmore

/-- A session has the graph of a description over a valid catalog, and in its registry the tables
of the graph. -/
structure Over (c : Catalog) (source : String) (d : JoinDescription) (s : Session) : Prop where
  spans : c.Spans source d s.graph
  registered : AliasRegistry.Registered s.graph.registrations s.registry

variable {c : Catalog} {source : String} {d : JoinDescription} {s : Session}

theorem over_of_build {dialect : Dialect} {limits : PageLimits} (hvalid : c.validate = .ok ())
    (h : (build c.load source d dialect limits).1 = .ok s) : s.Over c source d := by
  unfold build at h
  split at h
  · simp at h
  · next graph b hgraph =>
      obtain ⟨registry, hregistry, hs⟩ := bind_eq_ok_iff.mp h
      obtain rfl := pure_eq_ok_iff.mp hs
      refine ⟨Catalog.spans_of_build hvalid (congrArg Prod.fst hgraph), ?_⟩
      exact registered_of_registerAll .start hregistry

namespace Over

theorem sound (h : s.Over c source d) {n : TableNode} (hn : n ∈ s.graph.nodes) : n.Sound :=
  h.spans.distinct.sound n (h.spans.mem_tables hn)

theorem left_mem (h : s.Over c source d) {l : JoinLink} (hl : l ∈ s.graph.links) :
    l.left ∈ s.graph.nodes :=
  h.spans.mem_nodes_iff.mpr (Or.inr ⟨l, hl, Or.inl rfl⟩)

theorem right_mem (h : s.Over c source d) {l : JoinLink} (hl : l ∈ s.graph.links) :
    l.right ∈ s.graph.nodes :=
  h.spans.mem_nodes_iff.mpr (Or.inr ⟨l, hl, Or.inr rfl⟩)

theorem shows (h : s.Over c source d) (hseparate : Registration.Separate s.graph.registrations)
    {n : TableNode} (hn : n ∈ s.graph.nodes) :
    (s.registry.ShowsFields n.registration ↔ n.registration.Consistent) ∧
      (n.registration.Consistent → s.registry.ShowsAliases n.registration) := by
  have hnodup : (s.graph.registrations.map (·.table)).Nodup := by
    simpa [JoinGraph.registrations, Function.comp_def, TableNode.registration]
      using s.graph.nodup_nodes
  apply AliasRegistry.shows_of_registered h.registered hseparate hnodup _ _ (List.mem_map_of_mem hn)
  intro g hg
  obtain ⟨n', hn', rfl⟩ := List.mem_map.mp hg
  exact (h.sound hn').targets

/-- Every name of a table means the column that the table has for it exactly if no alias of the
table takes over a field with another column. -/
theorem resolves_iff_consistent (h : s.Over c source d)
    (hseparate : Registration.Separate s.graph.registrations) {n : TableNode}
    (hn : n ∈ s.graph.nodes) :
    (∀ name ∈ n.registration.names, ∃ column, n.column? name = some column ∧
        s.registry.resolve (ColumnRef.qualify n.table name) = .ok column) ↔
      n.registration.Consistent := by
  obtain ⟨hfields, haliases⟩ := h.shows hseparate hn
  constructor
  · intro hresolves
    apply hfields.mp
    intro e he
    obtain ⟨column, hcolumn, hresolve⟩ := hresolves e.1 (Registration.mem_names_of_field he)
    rw [TableNode.column?_of_field (SortedMap.mem_entries_iff.mp he)] at hcolumn
    obtain rfl := Option.some.inj hcolumn
    exact AliasRegistry.resolve_eq_ok_iff.mp hresolve
  · intro hconsistent name hname
    cases hfield : n.fields.get? name with
    | some column =>
        refine ⟨⟨n.table, column⟩, TableNode.column?_of_field hfield, ?_⟩
        exact AliasRegistry.resolve_eq_ok_iff.mpr ((hfields.mpr hconsistent).owner hfield)
    | none =>
        rcases List.mem_append.mp hname with hname | hname
        · obtain ⟨column, hcolumn⟩ := SortedMap.mem_keys_iff.mp hname
          simp [TableNode.registration, hfield] at hcolumn
        · obtain ⟨e, he, rfl⟩ := List.mem_map.mp hname
          have halias : n.aliases.get? e.1 = some e.2 := SortedMap.mem_entries_iff.mp he
          obtain ⟨column, hcolumn⟩ := (h.sound hn).targets e he
          refine ⟨⟨n.table, column⟩, TableNode.column?_of_alias hfield halias hcolumn, ?_⟩
          exact AliasRegistry.resolve_eq_ok_iff.mpr (haliases hconsistent e he column hcolumn)

/-! ### Joins -/

/-- What stands for a name of a table resolves, to the column that the table has for the name if no
alias takes over a field of it. -/
theorem exists_resolve_canonical (h : s.Over c source d)
    (hseparate : Registration.Separate s.graph.registrations) {n : TableNode}
    (hn : n ∈ s.graph.nodes) {name field : String} (hname : n.canonicalField? name = some field) :
    ∃ column, s.registry.resolve (ColumnRef.qualify n.table field) = .ok column ∧
      (n.registration.Consistent → n.column? name = some column) := by
  have hg : n.registration ∈ s.graph.registrations := List.mem_map_of_mem hn
  obtain ⟨own, hown⟩ := (h.sound hn).exists_field hname
  have hfield : field ∈ n.registration.names :=
    Registration.mem_names_of_field (SortedMap.mem_entries_iff.mpr hown)
  obtain ⟨-, hbound⟩ :=
    AliasRegistry.guarded_of_registered h.registered hseparate.across fun _ => id
  obtain ⟨column, howner⟩ := hbound n.registration hg field hfield
  refine ⟨column, AliasRegistry.resolve_eq_ok_iff.mpr howner, ?_⟩
  intro hconsistent
  have hshown := ((h.shows hseparate hn).1.mpr hconsistent).owner hown
  obtain rfl : column = ⟨n.table, own⟩ := Option.some.inj (howner.symm.trans hshown)
  exact TableNode.column?_of_canonicalField? hname hown

end Over

/-- A clause joins by the columns that the tables of the two entities have for the names at the
ends of a join, as the dialect writes them. -/
def Follows (c : Catalog) (dialect : Dialect) (spec : JoinSpec) (clause : JoinClause) : Prop :=
  ∃ left right leftColumn rightColumn,
    c.tableFor spec.left.entity = .ok left ∧ c.tableFor spec.right.entity = .ok right ∧
    left.column? spec.left.field = some leftColumn ∧
    right.column? spec.right.field = some rightColumn ∧
    clause = Sql.writtenJoin dialect ⟨spec.kind, right.table, leftColumn, rightColumn⟩

theorem joinClause_eq_ok {l : JoinLink} {left right : ColumnRef}
    (hleft : s.registry.resolve (ColumnRef.qualify l.on.fromTable l.on.fromField) = .ok left)
    (hright : s.registry.resolve (ColumnRef.qualify l.on.toTable l.on.toField) = .ok right) :
    s.joinClause l = .ok (Sql.writtenJoin s.dialect ⟨l.kind, l.right.table, left, right⟩) := by
  rw [Scope.joinClause, Scope.resolve, hleft, Scope.resolve, hright]
  rfl

namespace Over

theorem exists_clause (h : s.Over c source d)
    (hseparate : Registration.Separate s.graph.registrations) {l : JoinLink}
    (hl : l ∈ s.graph.links) {connected : List String} {spec : JoinSpec}
    (hlinks : GraphBuilder.Links c.load source connected spec l) :
    ∃ clause, s.joinClause l = .ok clause ∧
      ((∀ n ∈ s.graph.nodes, n.registration.Consistent) → Follows c s.dialect spec clause) := by
  obtain ⟨left, hleft, hleftColumn⟩ :=
    h.exists_resolve_canonical hseparate (h.left_mem hl) hlinks.fromField
  obtain ⟨right, hright, hrightColumn⟩ :=
    h.exists_resolve_canonical hseparate (h.right_mem hl) hlinks.toField
  rw [← hlinks.fromTable] at hleft
  rw [← hlinks.toTable] at hright
  refine ⟨_, joinClause_eq_ok hleft hright, ?_⟩
  intro hconsistent
  exact ⟨l.left, l.right, left, right, Catalog.tableFor_left hlinks, Catalog.tableFor_right hlinks,
    hleftColumn (hconsistent l.left (h.left_mem hl)),
    hrightColumn (hconsistent l.right (h.right_mem hl)), by rw [hlinks.kind]⟩

/-- The joins of a session compile, one clause for each. -/
theorem exists_clauses (h : s.Over c source d)
    (hseparate : Registration.Separate s.graph.registrations)
    {connected : List String} {specs : List JoinSpec} {ls : List JoinLink}
    (hlinks : GraphBuilder.LinksAll c.load source connected specs ls)
    (hls : ∀ l ∈ ls, l ∈ s.graph.links) :
    ∃ clauses, s.joinClauses ls = .ok clauses ∧
      ((∀ n ∈ s.graph.nodes, n.registration.Consistent) →
        List.Forall₂ (Follows c s.dialect) specs clauses) := by
  induction hlinks with
  | nil => exact ⟨[], rfl, fun _ => .nil⟩
  | @cons connected spec specs l ls hfirst _ ih =>
      obtain ⟨clause, hclause, hfollows⟩ :=
        h.exists_clause hseparate (hls l List.mem_cons_self) hfirst
      obtain ⟨clauses, hclauses, hfollowsAll⟩ :=
        ih fun l hl => hls l (List.mem_cons_of_mem _ hl)
      refine ⟨clause :: clauses, ?_, ?_⟩
      · rw [Scope.joinClauses, hclause, hclauses]
        rfl
      · intro hconsistent
        exact .cons (hfollows hconsistent) (hfollowsAll hconsistent)

end Over

/-- As long as no name of a table reads like a qualified one, the names of a table of the graph mean
the columns of their fields exactly if no alias of it takes over a field with another column. The
joins compile then, and if all tables are so, each joins by the columns of its two fields. -/
theorem names_resolve_iff_consistent (c : Catalog) (source : String) (d : JoinDescription)
    (dialect : Dialect) (limits : PageLimits) (s : Session) (hvalid : c.validate = .ok ())
    (hbuild : (build c.load source d dialect limits).1 = .ok s)
    (hseparate : Registration.Separate s.graph.registrations) :
    (∀ n ∈ s.graph.nodes,
      (∀ name ∈ n.registration.names, ∃ column, n.column? name = some column ∧
        s.registry.resolve (ColumnRef.qualify n.table name) = .ok column) ↔
      n.registration.Consistent) ∧
    ∃ clauses, s.joinClauses s.graph.links = .ok clauses ∧
      ((∀ n ∈ s.graph.nodes, n.registration.Consistent) →
        List.Forall₂ (Follows c s.dialect) d.joins clauses) := by
  have hover := over_of_build hvalid hbuild
  constructor
  · intro n hn
    exact hover.resolves_iff_consistent hseparate hn
  · exact hover.exists_clauses hseparate hover.spans.links fun _ => id

/-- An alias takes over a field that has the column of the field it stands for. -/
def renamedCatalog : Catalog where
  root := "Order"
  tables := [
    ⟨"Order", "orders", SortedMap.ofList [("code", "id"), ("id", "id")],
      SortedMap.ofList [("code", "id")]⟩,
    ⟨"Item", "order items", SortedMap.ofList [("id", "pk"), ("order", "order_id")], ∅⟩]
  joins := [⟨⟨"Order", "code"⟩, ⟨"Item", "order"⟩, .left⟩]

theorem names_resolve_iff_consistent_renamed :
    renamedCatalog.validate = .ok () ∧ ∃ s,
      (build renamedCatalog.load "default" renamedCatalog.joinDescription .mysql {}).1 = .ok s ∧
      Registration.Separate s.graph.registrations ∧
      (∀ n ∈ s.graph.nodes, n.registration.Consistent) ∧
      ∃ clauses, s.joinClauses s.graph.links = .ok clauses ∧
        List.Forall₂ (Follows renamedCatalog s.dialect) renamedCatalog.joins clauses := by
  obtain ⟨s, hbuild, hnodes⟩ : ∃ s,
      (build renamedCatalog.load "default" renamedCatalog.joinDescription .mysql {}).1 = .ok s ∧
        s.graph.nodes = renamedCatalog.tables := ⟨_, rfl, rfl⟩
  have hseparate : Registration.Separate s.graph.registrations := by
    rw [JoinGraph.registrations, hnodes]
    constructor
    · unfold Registration.Apart
      decide
    · unfold Registration.Plain
      decide
  have hconsistent : ∀ n ∈ s.graph.nodes, n.registration.Consistent := by
    rw [hnodes]
    intro n hn e he column hcolumn
    simp only [renamedCatalog, List.mem_cons, List.not_mem_nil, or_false] at hn
    rcases hn with rfl | rfl
    · obtain rfl : e = ("code", "id") := List.mem_singleton.mp he
      exact hcolumn
    · simp [TableNode.registration, EmptyCollection.emptyCollection, SortedMap.empty] at he
  obtain ⟨-, clauses, hclauses, hfollows⟩ := names_resolve_iff_consistent renamedCatalog "default"
    renamedCatalog.joinDescription .mysql {} s rfl hbuild hseparate
  exact ⟨rfl, s, hbuild, hseparate, hconsistent, clauses, hclauses, hfollows hconsistent⟩

/-- An alias takes over a field that has another column than the field it stands for. -/
def takenCatalog : Catalog where
  root := "Order"
  tables := [
    ⟨"Order", "orders", SortedMap.ofList [("id", "id"), ("name", "order_name")],
      SortedMap.ofList [("name", "id")]⟩,
    ⟨"Item", "items", SortedMap.ofList [("order", "order_name")], ∅⟩]
  joins := [⟨⟨"Order", "name"⟩, ⟨"Item", "order"⟩, .inner⟩]

/-- A field reads like the qualified name of a field of another table. -/
def pointedCatalog : Catalog where
  root := "A"
  tables := [
    ⟨"A", "a", SortedMap.ofList [("b", "x")], ∅⟩,
    ⟨"T", "t", SortedMap.ofList [("a.b", "y")], ∅⟩]
  joins := [⟨⟨"A", "b"⟩, ⟨"T", "a.b"⟩, .inner⟩]

/-- A field that is taken over means another column than its table has for it, and the join of the
field is a join by that column. A join by a field that is no longer told from another one fails. -/
theorem names_taken_over :
    (takenCatalog.validate = .ok () ∧ ∃ s,
      (build takenCatalog.load "default" takenCatalog.joinDescription .mysql {}).1 = .ok s ∧
      (∃ n ∈ s.graph.nodes, n.table = "orders" ∧ "name" ∈ n.registration.names ∧
        n.column? "name" = some ⟨"orders", "order_name"⟩) ∧
      s.registry.resolve (ColumnRef.qualify "orders" "name") = .ok ⟨"orders", "id"⟩ ∧
      s.joinClauses s.graph.links = .ok [Sql.writtenJoin .mysql
        ⟨.inner, "items", ⟨"orders", "id"⟩, ⟨"items", "order_name"⟩⟩]) ∧
    pointedCatalog.validate = .ok () ∧ ∃ s,
      (build pointedCatalog.load "default" pointedCatalog.joinDescription .mysql {}).1 = .ok s ∧
      s.joinClauses s.graph.links = .error (.ambiguousAlias "a.b" "a" "t") := by
  constructor
  · refine ⟨rfl, _, rfl, ?_, rfl, rfl⟩
    exact ⟨_, List.mem_cons_self, rfl, by decide, rfl⟩
  · exact ⟨rfl, _, rfl, rfl⟩

end Session

end CriteriaQuery
