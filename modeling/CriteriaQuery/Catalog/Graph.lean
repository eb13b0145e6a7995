import CriteriaQuery.Catalog.AliasRegistry
import CriteriaQuery.Catalog.Join

/-!
# Join graphs

A join graph is the table of the root entity and the links that join further tables to it.
Tables are supplied by a loader; a builder asks the loader for each pair of entity and join
field once and remembers its answers, also across several graphs. Each join must start at
an entity that is already in the graph and bring in one that is not.

## Implementation notes

A builder is a value: every operation gives back its result beside the builder after it,
whether it succeeded or not. The builder also keeps the requests made to the loader, in
order, next to the count of the answers it was given.

A loader may change its answers. The answer of a changing loader depends on all requests that were
made before. There is one more of them each time, so any succession of answers is that of some
changing loader. A loader that never changes is the case where the requests before are ignored.
-/

namespace CriteriaQuery

/-- A table with the entity mapped to it, its fields, and aliases for these fields. -/
structure TableNode where
  entity : String
  table : String
  fields : NameMap
  aliases : NameMap
deriving DecidableEq

/-- The field that a field or an alias of the table stands for. -/
def TableNode.canonicalField? (node : TableNode) (name : String) : Option String :=
  if node.fields.contains name then some name else node.aliases.get? name

/-- The equality that joins two tables. -/
structure JoinOn where
  fromTable : String
  fromField : String
  toTable : String
  toField : String
deriving DecidableEq

namespace JoinOn

/-- The wording of an equality. -/
def display (on : JoinOn) : String :=
  ColumnRef.qualify on.fromTable on.fromField ++ " = " ++ ColumnRef.qualify on.toTable on.toField

/-- The four parts, in the order that equalities are sorted by. -/
def parts (on : JoinOn) : List String := [on.fromTable, on.fromField, on.toTable, on.toField]

/-- Whether a list of texts comes before another or is the same. -/
def partsAtMost : List String → List String → Bool
  | [], _ => true
  | _ :: _, [] => false
  | a :: as, b :: bs => decide (a < b) || decide (a = b) && partsAtMost as bs

/-- Whether an equality comes before another or is the same. -/
def isAtMost (a b : JoinOn) : Bool := partsAtMost a.parts b.parts

end JoinOn

/-- Two tables of the graph and the equality that joins them. -/
structure JoinLink where
  left : TableNode
  right : TableNode
  on : JoinOn
  kind : JoinKind

namespace JoinLink

/-- The link between two tables by a pair of their fields. -/
def ofFields (left right : TableNode) (leftField rightField : String) (kind : JoinKind) :
    JoinLink :=
  ⟨left, right, ⟨left.table, leftField, right.table, rightField⟩, kind⟩

/-- Links are the same when they join by the same equality. -/
def same (a b : JoinLink) : Bool := decide (a.on = b.on)

end JoinLink

/-- A root table and the links from there. -/
structure JoinGraph where
  root : TableNode
  links : List JoinLink

namespace JoinGraph

/-- The tables of the graph, the root first, each table once. -/
def nodes (g : JoinGraph) : List TableNode :=
  distinctBy TableNode.table (g.root :: g.links.flatMap fun l => [l.left, l.right])

end JoinGraph

/-- What a loader is asked for: an entity, perhaps for one of its fields, at a data source. -/
structure LoadRequest where
  entity : String
  field : Option String
  source : String
deriving DecidableEq

/-- Supplies the table of an entity. -/
abbrev NodeLoader := LoadRequest → Except CatalogError TableNode

/-- Supplies the table of an entity, given the requests that were made before. -/
abbrev ChangingLoader := List LoadRequest → NodeLoader

/-- A loader's answers so far, how many there were, and all requests made. -/
structure GraphBuilder where
  memo : List ((String × Option String) × TableNode) := []
  loads : Nat := 0
  requests : List LoadRequest := []

namespace GraphBuilder

/-- The table remembered for an entity and a field. -/
def remembered? (b : GraphBuilder) (entity : String) (field : Option String) : Option TableNode :=
  (b.memo.find? fun e => e.1 = (entity, field)).map Prod.snd

/-- The table of an entity for a field, from memory or from the loader. -/
def node (load : NodeLoader) (source entity : String) (field : Option String)
    (b : GraphBuilder) : Except CatalogError TableNode × GraphBuilder :=
  match b.remembered? entity field with
  | some n => (.ok n, b)
  | none =>
    let asked := { b with requests := b.requests ++ [⟨entity, field, source⟩] }
    match load ⟨entity, field, source⟩ with
    | .ok n =>
      (.ok n, { asked with memo := ((entity, field), n) :: b.memo, loads := b.loads + 1 })
    | .error e => (.error e, asked)

/-- The field of a table that one end of a join names. -/
def canonical (n : TableNode) (ref : FieldRef) : Except CatalogError String :=
  match n.canonicalField? ref.field with
  | some field => .ok field
  | none => .error (.unknownJoinField ref.entity ref.field)

/-- The link of a join whose two tables are at hand. -/
def linkOf (spec : JoinSpec) (left right : TableNode) : Except CatalogError JoinLink := do
  let leftField ← canonical left spec.left
  let rightField ← canonical right spec.right
  return .ofFields left right leftField rightField spec.kind

/-- A step of a builder, and another one if it succeeds. -/
def andThen {α β : Type} (x : Except CatalogError α × GraphBuilder)
    (next : α → GraphBuilder → Except CatalogError β × GraphBuilder) :
    Except CatalogError β × GraphBuilder :=
  match x with
  | (.error e, b) => (.error e, b)
  | (.ok a, b) => next a b

theorem andThen_eq_ok_iff {α β : Type} {x : Except CatalogError α × GraphBuilder}
    {next : α → GraphBuilder → Except CatalogError β × GraphBuilder} {c : β} {b' : GraphBuilder} :
    andThen x next = (.ok c, b') ↔ ∃ a b, x = (.ok a, b) ∧ next a b = (.ok c, b') := by
  obtain ⟨_ | a, b⟩ := x
  · simp [andThen]
  · constructor
    · exact fun h => ⟨a, b, rfl, h⟩
    · rintro ⟨_, _, ⟨⟩, h⟩
      exact h

end GraphBuilder

namespace ChangingLoader

open GraphBuilder (andThen linkOf)

/-- The table of an entity for a field, from memory or from the loader as it is by now. -/
def node (load : ChangingLoader) (source entity : String) (field : Option String)
    (b : GraphBuilder) : Except CatalogError TableNode × GraphBuilder :=
  GraphBuilder.node (load b.requests) source entity field b

/-- The link of one join, given the entities in the graph. -/
def link (load : ChangingLoader) (source : String) (connected : List String) (spec : JoinSpec)
    (b : GraphBuilder) : Except CatalogError JoinLink × GraphBuilder :=
  if spec.left.entity ∉ connected then (.error (.disconnectedJoin spec.left.entity), b)
  else if spec.right.entity ∈ connected then (.error (.repeatedJoinEntity spec.right.entity), b)
  else
    andThen (node load source spec.left.entity (some spec.left.field) b) fun left b =>
      andThen (node load source spec.right.entity (some spec.right.field) b) fun right b =>
        (linkOf spec left right, b)

/-- The links of joins in order, given the entities in the graph. -/
def links (load : ChangingLoader) (source : String) :
    List String → List JoinSpec → GraphBuilder → Except CatalogError (List JoinLink) × GraphBuilder
  | _, [], b => (.ok [], b)
  | connected, spec :: rest, b =>
    andThen (link load source connected spec b) fun l b =>
      andThen (links load source (spec.right.entity :: connected) rest b) fun ls b =>
        (.ok (l :: ls), b)

/-- The join graph of a description. -/
def build (load : ChangingLoader) (source : String) (d : JoinDescription) (b : GraphBuilder) :
    Except CatalogError JoinGraph × GraphBuilder :=
  andThen (node load source d.root none b) fun root b =>
    andThen (links load source [d.root] d.joins b) fun ls b => (.ok ⟨root, ls⟩, b)

end ChangingLoader

namespace GraphBuilder

/-- The link of one join, given the entities in the graph. -/
def link (load : NodeLoader) (source : String) (connected : List String) (spec : JoinSpec)
    (b : GraphBuilder) : Except CatalogError JoinLink × GraphBuilder :=
  ChangingLoader.link (fun _ => load) source connected spec b

/-- The links of joins in order, given the entities in the graph. -/
def links (load : NodeLoader) (source : String) (connected : List String) (specs : List JoinSpec)
    (b : GraphBuilder) : Except CatalogError (List JoinLink) × GraphBuilder :=
  ChangingLoader.links (fun _ => load) source connected specs b

/-- The join graph of a description. -/
def build (load : NodeLoader) (source : String) (d : JoinDescription) (b : GraphBuilder) :
    Except CatalogError JoinGraph × GraphBuilder :=
  ChangingLoader.build (fun _ => load) source d b

variable {load : NodeLoader} {source : String} {connected : List String} {spec : JoinSpec}
  {specs : List JoinSpec} {b b' : GraphBuilder}

theorem link_of_notMem (h : spec.left.entity ∉ connected) :
    link load source connected spec b = (.error (.disconnectedJoin spec.left.entity), b) :=
  if_pos h

theorem link_of_mem (hconnects : spec.left.entity ∈ connected)
    (hbrings : spec.right.entity ∉ connected) :
    link load source connected spec b =
      andThen (node load source spec.left.entity (some spec.left.field) b) fun left b =>
        andThen (node load source spec.right.entity (some spec.right.field) b) fun right b =>
          (linkOf spec left right, b) := by
  rw [link, ChangingLoader.link, if_neg (not_not_intro hconnects), if_neg hbrings]
  rfl

theorem links_cons (load : NodeLoader) (source : String) (connected : List String)
    (spec : JoinSpec) (specs : List JoinSpec) (b : GraphBuilder) :
    links load source connected (spec :: specs) b =
      andThen (link load source connected spec b) fun l b =>
        andThen (links load source (spec.right.entity :: connected) specs b) fun ls b =>
          (.ok (l :: ls), b) :=
  rfl

theorem build_eq (load : NodeLoader) (source : String) (d : JoinDescription) (b : GraphBuilder) :
    build load source d b =
      andThen (node load source d.root none b) fun root b =>
        andThen (links load source [d.root] d.joins b) fun ls b => (.ok ⟨root, ls⟩, b) :=
  rfl

/-- A link is that of a join between an entity of the graph and a new one. -/
theorem exists_of_link {l : JoinLink} (h : link load source connected spec b = (.ok l, b')) :
    spec.left.entity ∈ connected ∧ spec.right.entity ∉ connected ∧ ∃ left b₁ right,
      node load source spec.left.entity (some spec.left.field) b = (.ok left, b₁) ∧
        node load source spec.right.entity (some spec.right.field) b₁ = (.ok right, b') ∧
        linkOf spec left right = .ok l := by
  by_cases hconnects : spec.left.entity ∈ connected
  · by_cases hbrings : spec.right.entity ∈ connected
    · rw [link, ChangingLoader.link, if_neg (not_not_intro hconnects), if_pos hbrings] at h
      nomatch h
    · rw [link_of_mem hconnects hbrings] at h
      obtain ⟨left, b₁, hleft, h⟩ := andThen_eq_ok_iff.mp h
      obtain ⟨right, b₂, hright, h⟩ := andThen_eq_ok_iff.mp h
      obtain ⟨hl, rfl⟩ := Prod.mk.inj h
      exact ⟨hconnects, hbrings, left, b₁, right, hleft, hright, hl⟩
  · rw [link_of_notMem hconnects] at h
    nomatch h

theorem exists_of_links_cons {ls : List JoinLink}
    (h : links load source connected (spec :: specs) b = (.ok ls, b')) :
    ∃ l b₁ rest, link load source connected spec b = (.ok l, b₁) ∧
      links load source (spec.right.entity :: connected) specs b₁ = (.ok rest, b') ∧
      ls = l :: rest := by
  obtain ⟨l, b₁, hlink, h⟩ := andThen_eq_ok_iff.mp h
  obtain ⟨rest, b₂, hrest, h⟩ := andThen_eq_ok_iff.mp h
  obtain ⟨hls, rfl⟩ := Prod.mk.inj h
  exact ⟨l, b₁, rest, hlink, hrest, (Except.ok.inj hls).symm⟩

theorem exists_of_build {d : JoinDescription} {g : JoinGraph}
    (h : build load source d b = (.ok g, b')) :
    ∃ b₁, node load source d.root none b = (.ok g.root, b₁) ∧
      links load source [d.root] d.joins b₁ = (.ok g.links, b') := by
  obtain ⟨root, b₁, hroot, h⟩ := andThen_eq_ok_iff.mp h
  obtain ⟨ls, b₂, hlinks, h⟩ := andThen_eq_ok_iff.mp h
  obtain ⟨hg, rfl⟩ := Prod.mk.inj h
  obtain rfl := Except.ok.inj hg
  exact ⟨b₁, hroot, hlinks⟩

end GraphBuilder

end CriteriaQuery
