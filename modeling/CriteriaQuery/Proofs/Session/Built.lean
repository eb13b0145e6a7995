import CriteriaQuery.Proofs.Catalog.Connected
import CriteriaQuery.Proofs.Registry.Clash
import CriteriaQuery.Proofs.Session.Names

/-!
# What a valid catalog leaves to fail

Of a valid catalog a session is built but for two causes. A join may start at an entity that no
join before it has brought in, and then there is no graph; or a name may be claimed by two tables
of the graph. Entities, join fields and targets of aliases are never missing, and no entity is
joined twice, whatever the names are.
-/

namespace CriteriaQuery

namespace Session

/-- Tables whose aliases stand for their fields are registered, or a name of one clashes. -/
theorem orAmbiguous_registerAll {ns : List TableNode} (hns : ∀ n ∈ ns, n.Sound)
    (r : AliasRegistry) : OrAmbiguous (fun _ => True) (registerAll ns r) := by
  induction ns generalizing r with
  | nil => exact .ok trivial
  | cons n ns ih =>
      have hn : n.registration.Sound := (hns n List.mem_cons_self).targets
      refine (AliasRegistry.orAmbiguous_register r hn).bind fun r₁ _ => ?_
      exact ih (fun n' hn' => hns n' (List.mem_cons_of_mem n hn')) r₁

variable {c : Catalog} {source : String} {dialect : Dialect} {limits : PageLimits}

/-- Where the graph is built, only a name can keep the session from being so. -/
theorem orAmbiguous_build {d : JoinDescription} {g : JoinGraph} (hvalid : c.validate = .ok ())
    (hgraph : (GraphBuilder.build c.load source d {}).1 = .ok g) :
    OrAmbiguous (fun _ => True) (build c.load source d dialect limits).1 := by
  have hspans := Catalog.spans_of_build hvalid hgraph
  unfold build
  split
  · next hbuild => simp [hbuild] at hgraph
  · next graph b hbuild =>
      obtain rfl : graph = g := by simpa [hbuild] using hgraph
      have hsound : ∀ n ∈ graph.nodes, n.Sound := fun n hn =>
        hspans.distinct.sound n (hspans.mem_tables hn)
      exact (orAmbiguous_registerAll hsound ∅).bind fun _ _ => .ok trivial

theorem build_eq_error {d : JoinDescription} {e : CatalogError}
    (hgraph : (GraphBuilder.build c.load source d {}).1 = .error e) :
    (build c.load source d dialect limits).1 = .error e := by
  unfold build
  split
  · next hbuild => simpa [hbuild] using hgraph
  · next hbuild => simp [hbuild] at hgraph

end Session

namespace Catalog

/-- Every join starts at the root or at the right entity of an earlier join. -/
def Connected (c : Catalog) : Prop :=
  ∀ i spec, c.joins[i]? = some spec → JoinSpec.Starts [c.root] c.joins i spec

/-- The graph of a valid catalog is built exactly if it is connected, and otherwise the entity is
reported at which the first stray join starts. A session fails as its graph does, or else because
of a name that two tables claim. -/
theorem connected_iff_built (c : Catalog) (hvalid : c.validate = .ok ()) (source : String)
    (b : GraphBuilder) (hb : b.Remembers c.load source) (dialect : Dialect) (limits : PageLimits) :
    ((∃ g, (GraphBuilder.build c.load source c.joinDescription b).1 = .ok g) ↔ c.Connected) ∧
    (c.Connected →
      (∃ s, (Session.build c.load source c.joinDescription dialect limits).1 = .ok s) ∨
        ∃ name first second,
          (Session.build c.load source c.joinDescription dialect limits).1 =
            .error (.ambiguousAlias name first second)) ∧
    (¬ c.Connected → ∃ i spec, JoinSpec.FirstStray [c.root] c.joins i spec ∧
      (GraphBuilder.build c.load source c.joinDescription b).1 =
        .error (.disconnectedJoin spec.left.entity) ∧
      (Session.build c.load source c.joinDescription dialect limits).1 =
        .error (.disconnectedJoin spec.left.entity)) := by
  have hgraph := build_outcome hvalid hb
  have hfresh := build_outcome hvalid (GraphBuilder.remembers_start c.load source)
  cases hstray : JoinSpec.stray? [c.root] c.joins with
  | none =>
      rw [hstray] at hgraph hfresh
      obtain ⟨g, hg⟩ := hfresh
      have hconnected : c.Connected := JoinSpec.stray?_eq_none_iff.mp hstray
      refine ⟨iff_of_true hgraph hconnected, fun _ => ?_, fun h => absurd hconnected h⟩
      exact (Session.orAmbiguous_build hvalid hg).exists_ok
  | some entity =>
      rw [hstray] at hgraph hfresh
      obtain ⟨i, spec, hfirst, rfl⟩ := JoinSpec.exists_of_stray? hstray
      have hconnected : ¬ c.Connected := fun h => hfirst.stray (h i spec hfirst.found)
      refine ⟨iff_of_false ?_ hconnected, fun h => absurd h hconnected, fun _ => ?_⟩
      · rintro ⟨g, hg⟩
        simp [hg] at hgraph
      · exact ⟨i, spec, hfirst, hgraph, Session.build_eq_error hfresh⟩

/-- Tables of which one has an alias with the name of a field of another. -/
def clashingCatalog (joins : List JoinSpec) : Catalog where
  root := "Order"
  tables := [
    ⟨"Order", "orders", SortedMap.ofList [("id", "id"), ("total", "total")], ∅⟩,
    ⟨"Item", "items", SortedMap.ofList [("order", "order_id"), ("sum", "sum")],
      SortedMap.ofList [("total", "sum")]⟩,
    ⟨"Note", "notes", SortedMap.ofList [("item", "item_id")], ∅⟩]
  joins := joins

def itemJoin : JoinSpec := ⟨⟨"Order", "id"⟩, ⟨"Item", "order"⟩, .inner⟩

/-- The join of the notes starts at the items. -/
def noteJoin : JoinSpec := ⟨⟨"Item", "total"⟩, ⟨"Note", "item"⟩, .left⟩

/-- Both causes: in one order of the joins one is stray, in the other a name clashes. -/
theorem connected_iff_built_clashing :
    ((clashingCatalog [noteJoin, itemJoin]).validate = .ok () ∧
      (Session.build (clashingCatalog [noteJoin, itemJoin]).load "default"
        (clashingCatalog [noteJoin, itemJoin]).joinDescription .mysql {}).1 =
          .error (.disconnectedJoin "Item")) ∧
    (clashingCatalog [itemJoin, noteJoin]).validate = .ok () ∧
      (clashingCatalog [itemJoin, noteJoin]).Connected ∧
      (Session.build (clashingCatalog [itemJoin, noteJoin]).load "default"
        (clashingCatalog [itemJoin, noteJoin]).joinDescription .mysql {}).1 =
          .error (.ambiguousAlias "total" "orders" "items") := by
  constructor
  · obtain ⟨-, -, hstray⟩ := connected_iff_built (clashingCatalog [noteJoin, itemJoin]) rfl "default"
      {} (GraphBuilder.remembers_start _ _) .mysql {}
    have hnote : ¬ JoinSpec.Starts ["Order"] [noteJoin, itemJoin] 0 noteJoin := fun h =>
      absurd (JoinSpec.starts_zero_iff.mp h) (by decide)
    obtain ⟨i, spec, hfirst, -, hbuild⟩ := hstray fun h => hnote (h 0 noteJoin rfl)
    -- no join before the stray one is stray, so it is the join of the notes
    cases i with
    | zero =>
        obtain rfl : noteJoin = spec := Option.some.inj hfirst.found
        exact ⟨rfl, hbuild⟩
    | succ i => exact absurd (hfirst.earlier 0 (Nat.succ_pos i) noteJoin rfl) hnote
  · obtain ⟨hgraph, hsession, -⟩ := connected_iff_built (clashingCatalog [itemJoin, noteJoin]) rfl
      "default" {} (GraphBuilder.remembers_start _ _) .mysql {}
    exact ⟨rfl, hgraph.mp ⟨_, rfl⟩, rfl⟩

end Catalog

end CriteriaQuery
