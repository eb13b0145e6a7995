import CriteriaQuery.Proofs.Catalog.Valid

/-!
# Join graphs that are built

A builder remembers nothing but answers of its loader, so its tables are those that the loader has
for the ends of the joins. In the graph of a valid catalog they are tables of the catalog, each
once.
-/

namespace CriteriaQuery

namespace GraphBuilder

variable {load : NodeLoader} {source : String} {b b' : GraphBuilder}

/-- What a builder remembers are answers of the loader. -/
def Remembers (load : NodeLoader) (source : String) (b : GraphBuilder) : Prop :=
  ∀ entity field n, b.remembered? entity field = some n → load ⟨entity, field, source⟩ = .ok n

theorem remembers_start (load : NodeLoader) (source : String) : Remembers load source {} := by
  intro entity field n h
  simp [remembered?] at h

/-- A builder answers as its loader does, and goes on remembering its answers. -/
theorem Remembers.node (h : Remembers load source b) (entity : String) (field : Option String) :
    (node load source entity field b).1 = load ⟨entity, field, source⟩ ∧
      Remembers load source (node load source entity field b).2 := by
  unfold GraphBuilder.node
  cases hmemo : b.remembered? entity field with
  | some n => exact ⟨(h entity field n hmemo).symm, h⟩
  | none =>
      dsimp only
      cases hload : load ⟨entity, field, source⟩ with
      | error e => exact ⟨rfl, h⟩
      | ok n =>
          refine ⟨rfl, ?_⟩
          intro entity' field' n' hmemo'
          by_cases hkey : (entity, field) = (entity', field')
          · obtain ⟨rfl, rfl⟩ := Prod.mk.inj hkey
            obtain rfl : n = n' := by simpa [remembered?] using hmemo'
            exact hload
          · apply h entity' field' n'
            simpa [remembered?, List.find?_cons, hkey] using hmemo'

theorem canonical_eq_ok_iff {n : TableNode} {ref : FieldRef} {field : String} :
    canonical n ref = .ok field ↔ n.canonicalField? ref.field = some field := by
  unfold canonical
  cases n.canonicalField? ref.field <;> simp

/-- A link joins the tables that the loader has for the ends of a join, by the fields that the
names there stand for. The left entity is in the graph already, the right one is not. -/
structure Links (load : NodeLoader) (source : String) (connected : List String) (spec : JoinSpec)
    (l : JoinLink) : Prop where
  connects : spec.left.entity ∈ connected
  brings : spec.right.entity ∉ connected
  left : load ⟨spec.left.entity, some spec.left.field, source⟩ = .ok l.left
  right : load ⟨spec.right.entity, some spec.right.field, source⟩ = .ok l.right
  fromTable : l.on.fromTable = l.left.table
  fromField : l.left.canonicalField? spec.left.field = some l.on.fromField
  toTable : l.on.toTable = l.right.table
  toField : l.right.canonicalField? spec.right.field = some l.on.toField
  kind : l.kind = spec.kind

/-- The links of joins in order, each of which brings its right entity into the graph. -/
inductive LinksAll (load : NodeLoader) (source : String) :
    List String → List JoinSpec → List JoinLink → Prop
  | nil {connected : List String} : LinksAll load source connected [] []
  | cons {connected : List String} {spec : JoinSpec} {specs : List JoinSpec} {l : JoinLink}
    {ls : List JoinLink} (h : Links load source connected spec l)
    (hrest : LinksAll load source (spec.right.entity :: connected) specs ls) :
    LinksAll load source connected (spec :: specs) (l :: ls)

theorem LinksAll.exists_links {connected : List String} {specs : List JoinSpec}
    {ls : List JoinLink} (h : LinksAll load source connected specs ls) {l : JoinLink}
    (hl : l ∈ ls) : ∃ connected spec, Links load source connected spec l := by
  induction h with
  | nil => simp at hl
  | cons hfirst _ ih =>
      rcases List.mem_cons.mp hl with rfl | hl
      · exact ⟨_, _, hfirst⟩
      · exact ih hl

theorem links_of_linkOf {connected : List String} {spec : JoinSpec} {left right : TableNode}
    {l : JoinLink} (hconnects : spec.left.entity ∈ connected)
    (hbrings : spec.right.entity ∉ connected)
    (hleft : load ⟨spec.left.entity, some spec.left.field, source⟩ = .ok left)
    (hright : load ⟨spec.right.entity, some spec.right.field, source⟩ = .ok right)
    (h : linkOf spec left right = .ok l) : Links load source connected spec l := by
  obtain ⟨leftField, hleftField, h⟩ := bind_eq_ok_iff.mp h
  obtain ⟨rightField, hrightField, h⟩ := bind_eq_ok_iff.mp h
  obtain rfl := pure_eq_ok_iff.mp h
  exact {
    connects := hconnects
    brings := hbrings
    left := hleft
    right := hright
    fromTable := rfl
    fromField := canonical_eq_ok_iff.mp hleftField
    toTable := rfl
    toField := canonical_eq_ok_iff.mp hrightField
    kind := rfl }

theorem Remembers.link (h : Remembers load source b) {connected : List String} {spec : JoinSpec}
    {l : JoinLink} (hlink : link load source connected spec b = (.ok l, b')) :
    Links load source connected spec l ∧ Remembers load source b' := by
  obtain ⟨hconnects, hbrings, left, b₁, right, hleft, hright, hl⟩ := exists_of_link hlink
  obtain ⟨hloadLeft, h₁⟩ := h.node spec.left.entity (some spec.left.field)
  rw [hleft] at hloadLeft h₁
  obtain ⟨hloadRight, h₂⟩ := h₁.node spec.right.entity (some spec.right.field)
  rw [hright] at hloadRight h₂
  exact ⟨links_of_linkOf hconnects hbrings hloadLeft.symm hloadRight.symm hl, h₂⟩

theorem Remembers.links (h : Remembers load source b) {connected : List String}
    {specs : List JoinSpec} {ls : List JoinLink}
    (hlinks : links load source connected specs b = (.ok ls, b')) :
    LinksAll load source connected specs ls := by
  induction specs generalizing connected b ls with
  | nil =>
      obtain rfl : [] = ls := Except.ok.inj (congrArg Prod.fst hlinks)
      exact .nil
  | cons spec specs ih =>
      obtain ⟨l, b₁, rest, hlink, hrest, rfl⟩ := exists_of_links_cons hlinks
      obtain ⟨hl, h₁⟩ := h.link hlink
      exact .cons hl (ih h₁ hrest)

/-- A graph that is built has the table of the root and the links of the joins. -/
theorem build_eq_ok {d : JoinDescription} {g : JoinGraph}
    (h : (build load source d {}).1 = .ok g) :
    load ⟨d.root, none, source⟩ = .ok g.root ∧ LinksAll load source [d.root] d.joins g.links := by
  obtain ⟨b₁, hroot, hlinks⟩ := exists_of_build (Prod.ext h rfl)
  obtain ⟨hload, hstart⟩ := (remembers_start load source).node d.root none
  rw [hroot] at hload hstart
  exact ⟨hload.symm, hstart.links hlinks⟩

end GraphBuilder

theorem JoinGraph.nodup_nodes (g : JoinGraph) : (g.nodes.map (·.table)).Nodup :=
  nodup_map_distinctBy TableNode.table _

namespace Catalog

/-- A graph has the table of the root and the links of the joins, as the catalog declares them. -/
structure Spans (c : Catalog) (source : String) (d : JoinDescription) (g : JoinGraph) : Prop where
  distinct : Distinct c.tables
  root : c.tableFor d.root = .ok g.root
  links : GraphBuilder.LinksAll c.load source [d.root] d.joins g.links

variable {c : Catalog} {source : String} {d : JoinDescription} {g : JoinGraph}

theorem spans_of_build (hvalid : c.validate = .ok ())
    (h : (GraphBuilder.build c.load source d {}).1 = .ok g) : c.Spans source d g := by
  obtain ⟨hroot, hlinks⟩ := GraphBuilder.build_eq_ok h
  exact ⟨distinct_of_validate hvalid, tableFor_of_load hroot, hlinks⟩

theorem tableFor_left {connected : List String} {spec : JoinSpec} {l : JoinLink}
    (h : GraphBuilder.Links c.load source connected spec l) :
    c.tableFor spec.left.entity = .ok l.left :=
  tableFor_of_load h.left

theorem tableFor_right {connected : List String} {spec : JoinSpec} {l : JoinLink}
    (h : GraphBuilder.Links c.load source connected spec l) :
    c.tableFor spec.right.entity = .ok l.right :=
  tableFor_of_load h.right

theorem Spans.mem_tables_of_mem_ends (h : c.Spans source d g) {n : TableNode}
    (hn : n ∈ g.root :: g.links.flatMap fun l => [l.left, l.right]) : n ∈ c.tables := by
  rcases List.mem_cons.mp hn with rfl | hn
  · exact (tableFor_eq_ok h.root).1
  · obtain ⟨l, hl, hn⟩ := List.mem_flatMap.mp hn
    obtain ⟨connected, spec, hlinks⟩ := h.links.exists_links hl
    simp only [List.mem_cons, List.not_mem_nil, or_false] at hn
    rcases hn with rfl | rfl
    · exact (tableFor_eq_ok (tableFor_left hlinks)).1
    · exact (tableFor_eq_ok (tableFor_right hlinks)).1

theorem Spans.mem_tables (h : c.Spans source d g) {n : TableNode} (hn : n ∈ g.nodes) :
    n ∈ c.tables :=
  h.mem_tables_of_mem_ends (mem_of_mem_distinctBy hn)

/-- The tables of the graph are those at the root and at the ends of the links. -/
theorem Spans.mem_nodes_iff (h : c.Spans source d g) {n : TableNode} :
    n ∈ g.nodes ↔ n = g.root ∨ ∃ l ∈ g.links, n = l.left ∨ n = l.right := by
  -- each table is kept where its name stands first, and the name is as good as the table
  have hkept : n ∈ g.nodes ↔ n ∈ g.root :: g.links.flatMap fun l => [l.left, l.right] := by
    constructor
    · exact mem_of_mem_distinctBy
    · intro hn
      have hname : n.table ∈ g.nodes.map TableNode.table :=
        mem_map_distinctBy_iff.mpr (List.mem_map_of_mem hn)
      obtain ⟨n', hn', heq⟩ := List.mem_map.mp hname
      have hsame := h.distinct.eq_of_name (h.mem_tables hn') (h.mem_tables_of_mem_ends hn) heq
      rwa [← hsame]
  rw [hkept]
  simp

/-! ### The order of the links -/

/-- Of the tables of the catalog, those in a list are the tables of entities that are connected. -/
def Covers (c : Catalog) (connected tables : List String) : Prop :=
  ∀ t ∈ c.tables, t.table ∈ tables ↔ t.entity ∈ connected

theorem covers_root (hdistinct : Distinct c.tables) {entity : String} {t : TableNode}
    (h : c.tableFor entity = .ok t) : c.Covers [entity] [t.table] := by
  obtain ⟨ht, rfl⟩ := tableFor_eq_ok h
  intro t' ht'
  rw [List.mem_singleton, List.mem_singleton]
  constructor
  · intro hname
    rw [hdistinct.eq_of_name ht' ht hname]
  · intro hentity
    rw [hdistinct.eq_of_entity ht' ht hentity]

theorem Covers.next {connected tables : List String} (h : c.Covers connected tables)
    (hdistinct : Distinct c.tables) {entity : String} {t : TableNode}
    (hload : c.tableFor entity = .ok t) :
    c.Covers (entity :: connected) (tables ++ [t.table]) := by
  intro t' ht'
  have hroot := covers_root hdistinct hload t' ht'
  rw [List.mem_append, h t' ht', hroot, List.mem_singleton, List.mem_cons, or_comm]

/-- Every link starts at a table that is there already and brings in one that is not. -/
theorem scoped_of_linksAll {connected tables : List String} {specs : List JoinSpec}
    {ls : List JoinLink} (hdistinct : Distinct c.tables)
    (h : GraphBuilder.LinksAll c.load source connected specs ls)
    (hcovers : c.Covers connected tables) (hnodup : tables.Nodup) :
    (tables ++ ls.map (·.right.table)).Nodup ∧
      ∀ i l, ls[i]? = some l → l.left.table ∈ tables ++ (ls.take i).map (·.right.table) := by
  induction h generalizing tables with
  | nil => simpa using hnodup
  | @cons connected spec specs l ls hfirst _ ih =>
      obtain ⟨hleft, hleftEntity⟩ := tableFor_eq_ok (tableFor_left hfirst)
      obtain ⟨hright, hrightEntity⟩ := tableFor_eq_ok (tableFor_right hfirst)
      have hconnects : l.left.table ∈ tables := by
        rw [hcovers l.left hleft, hleftEntity]
        exact hfirst.connects
      have hbrings : l.right.table ∉ tables := by
        rw [hcovers l.right hright, hrightEntity]
        exact hfirst.brings
      have hnodup' : (tables ++ [l.right.table]).Nodup :=
        List.nodup_append.mpr ⟨hnodup, List.nodup_singleton _, by
          intro a ha b hb heq
          obtain rfl := List.mem_singleton.mp hb
          exact hbrings (heq ▸ ha)⟩
      obtain ⟨hnodupAll, hlefts⟩ :=
        ih (hcovers.next hdistinct (tableFor_right hfirst)) hnodup'
      constructor
      · simpa using hnodupAll
      · intro i l' hl'
        cases i with
        | zero =>
            obtain rfl : l = l' := by simpa using hl'
            simpa using hconnects
        | succ i =>
            have hlater := hlefts i l' (by simpa using hl')
            simpa using hlater

theorem Spans.scoped (h : c.Spans source d g) :
    (g.root.table :: g.links.map (·.right.table)).Nodup ∧ ∀ i l, g.links[i]? = some l →
      l.left.table ∈ g.root.table :: (g.links.take i).map (·.right.table) :=
  scoped_of_linksAll h.distinct h.links (covers_root h.distinct h.root) (List.nodup_singleton _)

/-- The tables of the graph are the root and those that are joined. -/
theorem Spans.table_mem (h : c.Spans source d g) {n : TableNode} (hn : n ∈ g.nodes) :
    n.table ∈ g.root.table :: g.links.map (·.right.table) := by
  rcases h.mem_nodes_iff.mp hn with rfl | ⟨l, hl, rfl | rfl⟩
  · exact List.mem_cons_self
  · obtain ⟨i, hi⟩ := List.mem_iff_getElem?.mp hl
    have hmem := h.scoped.2 i l hi
    rw [List.map_take] at hmem
    rcases List.mem_cons.mp hmem with hroot | hmem
    · exact List.mem_cons.mpr (Or.inl hroot)
    · exact List.mem_cons_of_mem _ (List.mem_of_mem_take hmem)
  · exact List.mem_cons_of_mem _ (List.mem_map_of_mem hl)

end Catalog

end CriteriaQuery
