import CriteriaQuery.Proofs.Catalog.Graph

/-!
# Joins that start nowhere

Valid joins name tables of the catalog and names of these tables, and each brings in an entity that
is new. Whether they start at an entity that is there already is not asked of a valid catalog, so
this alone decides whether a graph is built of it.
-/

namespace CriteriaQuery

/-! ### Where joins start -/

namespace JoinSpec

/-- Whether the join of a position starts at an entity that is there at first or that an earlier
join brings in. -/
def Starts (connected : List String) (specs : List JoinSpec) (i : Nat) (spec : JoinSpec) : Prop :=
  spec.left.entity ∈ connected ∨ spec.left.entity ∈ (specs.take i).map (·.right.entity)

/-- The join of a position starts nowhere, and all joins before it start somewhere. -/
structure FirstStray (connected : List String) (specs : List JoinSpec) (i : Nat) (spec : JoinSpec) :
    Prop where
  found : specs[i]? = some spec
  stray : ¬ Starts connected specs i spec
  earlier : ∀ j < i, ∀ spec', specs[j]? = some spec' → Starts connected specs j spec'

/-- The entity of the first join that does not start at one that is there by then. -/
def stray? : List String → List JoinSpec → Option String
  | _, [] => none
  | connected, spec :: rest =>
    if spec.left.entity ∈ connected then stray? (spec.right.entity :: connected) rest
    else some spec.left.entity

variable {connected : List String} {spec spec' : JoinSpec} {specs : List JoinSpec} {i : Nat}

theorem starts_zero_iff : Starts connected specs 0 spec ↔ spec.left.entity ∈ connected := by
  simp [Starts]

theorem starts_succ_iff : Starts connected (spec :: specs) (i + 1) spec' ↔
    Starts (spec.right.entity :: connected) specs i spec' := by
  simp only [Starts, List.take_succ_cons, List.map_cons, List.mem_cons]
  tauto

theorem stray?_eq_none_iff : stray? connected specs = none ↔
    ∀ i spec, specs[i]? = some spec → Starts connected specs i spec := by
  induction specs generalizing connected with
  | nil => simp [stray?]
  | cons first specs ih =>
      rw [stray?]
      split
      · next hfirst =>
          rw [ih]
          constructor
          · rintro h (_ | i) spec hspec
            · obtain rfl : first = spec := by simpa using hspec
              exact starts_zero_iff.mpr hfirst
            · exact starts_succ_iff.mpr (h i spec hspec)
          · exact fun h i spec hspec => starts_succ_iff.mp (h (i + 1) spec hspec)
      · next hfirst =>
          constructor
          · simp
          · exact fun h => absurd (starts_zero_iff.mp (h 0 first rfl)) hfirst

/-- What is found is the first join that starts nowhere. -/
theorem exists_of_stray? {entity : String} (h : stray? connected specs = some entity) :
    ∃ i spec, FirstStray connected specs i spec ∧ spec.left.entity = entity := by
  induction specs generalizing connected with
  | nil => simp [stray?] at h
  | cons first specs ih =>
      rw [stray?] at h
      split at h
      · next hfirst =>
          obtain ⟨i, spec, hstray, hentity⟩ := ih h
          refine ⟨i + 1, spec, ⟨hstray.found, ?_, ?_⟩, hentity⟩
          · exact fun hstarts => hstray.stray (starts_succ_iff.mp hstarts)
          · rintro (_ | j) hj spec' hspec'
            · obtain rfl : first = spec' := by simpa using hspec'
              exact starts_zero_iff.mpr hfirst
            · have hstarts := hstray.earlier j (Nat.lt_of_succ_lt_succ hj) spec' hspec'
              exact starts_succ_iff.mpr hstarts
      · next hfirst =>
          refine ⟨0, first, ⟨rfl, fun hstarts => hfirst (starts_zero_iff.mp hstarts), ?_⟩,
            Option.some.inj h⟩
          exact fun j hj => absurd hj (Nat.not_lt_zero j)

end JoinSpec

/-! ### Graphs of valid joins -/

namespace Catalog

variable {c : Catalog} {source : String} {connected : List String} {spec : JoinSpec}
  {specs : List JoinSpec}

theorem exists_of_checkEnd {ref : FieldRef} (h : c.checkEnd ref = .ok ()) :
    ∃ t field, c.tableFor ref.entity = .ok t ∧ t.canonicalField? ref.field = some field := by
  unfold checkEnd at h
  split at h
  · simp at h
  · next t ht =>
      split at h
      · next hfield =>
          obtain ⟨field, hfield⟩ := Option.isSome_iff_exists.mp hfield
          exact ⟨t, field, ht, hfield⟩
      · simp at h

/-- What a valid join asks for at one end is there. -/
theorem exists_load {ref : FieldRef} (h : c.checkEnd ref = .ok ()) (source : String) :
    ∃ t field, c.load ⟨ref.entity, some ref.field, source⟩ = .ok t ∧
      GraphBuilder.canonical t ref = .ok field := by
  obtain ⟨t, field, ht, hfield⟩ := exists_of_checkEnd h
  refine ⟨t, field, ?_, GraphBuilder.canonical_eq_ok_iff.mpr hfield⟩
  exact bind_eq_ok_iff.mpr ⟨t, ht, by simp [hfield]⟩

/-- A valid join brings in an entity that is new, and both of its ends are there. -/
theorem checkJoins_cons_iff : c.checkJoins connected (spec :: specs) = .ok () ↔
    (spec.left.entity ≠ spec.right.entity ∧ spec.right.entity ∉ connected) ∧
      c.checkEnd spec.left = .ok () ∧ c.checkEnd spec.right = .ok () ∧
      c.checkJoins (spec.right.entity :: connected) specs = .ok () := by
  rw [checkJoins]
  split
  · next h => simp [← not_or, h]
  · next h => simp [← not_or, h, bind_eq_ok_iff, Unique.exists_iff]

end Catalog

namespace GraphBuilder

variable {c : Catalog} {source : String} {b : GraphBuilder} {connected : List String}
  {spec : JoinSpec} {specs : List JoinSpec}

theorem Remembers.exists_node {load : NodeLoader} (h : Remembers load source b) {entity : String}
    {field : Option String} {n : TableNode} (hload : load ⟨entity, field, source⟩ = .ok n) :
    ∃ b', GraphBuilder.node load source entity field b = (.ok n, b') ∧
      Remembers load source b' := by
  obtain ⟨hanswer, hremembers⟩ := h.node entity field
  exact ⟨_, Prod.ext (hanswer.trans hload) rfl, hremembers⟩

/-- A valid join that starts at an entity of the graph is linked. -/
theorem Remembers.exists_link (h : Remembers c.load source b)
    (hconnects : spec.left.entity ∈ connected) (hbrings : spec.right.entity ∉ connected)
    (hleft : c.checkEnd spec.left = .ok ()) (hright : c.checkEnd spec.right = .ok ()) :
    ∃ l b', GraphBuilder.link c.load source connected spec b = (.ok l, b') ∧
      Remembers c.load source b' := by
  obtain ⟨left, leftField, hleft, hleftField⟩ := Catalog.exists_load hleft source
  obtain ⟨right, rightField, hright, hrightField⟩ := Catalog.exists_load hright source
  obtain ⟨b₁, hnode, h₁⟩ := h.exists_node hleft
  obtain ⟨b₂, hnode', h₂⟩ := h₁.exists_node hright
  refine ⟨.ofFields left right leftField rightField spec.kind, b₂, ?_, h₂⟩
  rw [link_of_mem hconnects hbrings, hnode]
  dsimp only [andThen]
  rw [hnode']
  simp only [linkOf, hleftField, hrightField]
  rfl

/-- Valid joins are linked up to the first one that starts nowhere. -/
theorem Remembers.links_outcome (h : Remembers c.load source b)
    (hvalid : c.checkJoins connected specs = .ok ()) :
    match JoinSpec.stray? connected specs with
    | none => ∃ ls b', GraphBuilder.links c.load source connected specs b = (.ok ls, b')
    | some entity => ∃ b', GraphBuilder.links c.load source connected specs b =
        (.error (.disconnectedJoin entity), b') := by
  induction specs generalizing connected b with
  | nil => exact ⟨[], b, rfl⟩
  | cons spec specs ih =>
      obtain ⟨⟨-, hbrings⟩, hleft, hright, hrest⟩ := Catalog.checkJoins_cons_iff.mp hvalid
      rw [JoinSpec.stray?, links_cons]
      by_cases hconnects : spec.left.entity ∈ connected
      · obtain ⟨l, b₁, hlink, h₁⟩ := h.exists_link hconnects hbrings hleft hright
        have hrest := ih h₁ hrest
        rw [if_pos hconnects, hlink]
        dsimp only [andThen]
        cases hstray : JoinSpec.stray? (spec.right.entity :: connected) specs with
        | none =>
            rw [hstray] at hrest
            obtain ⟨ls, b₂, hlinks⟩ := hrest
            exact ⟨l :: ls, b₂, by rw [hlinks]⟩
        | some entity =>
            rw [hstray] at hrest
            obtain ⟨b₂, hlinks⟩ := hrest
            exact ⟨b₂, by rw [hlinks]⟩
      · rw [if_neg hconnects, link_of_notMem hconnects]
        exact ⟨b, rfl⟩

end GraphBuilder

namespace Catalog

variable {c : Catalog} {source : String} {b : GraphBuilder}

theorem checkJoins_of_validate (h : c.validate = .ok ()) :
    (∃ t, c.tableFor c.root = .ok t) ∧ c.checkJoins [c.root] c.joins = .ok () := by
  obtain ⟨_, -, h⟩ := bind_eq_ok_iff.mp h
  obtain ⟨t, ht, hjoins⟩ := bind_eq_ok_iff.mp h
  exact ⟨⟨t, ht⟩, hjoins⟩

/-- Of a valid catalog the graph is built if no join starts nowhere, and the first one that does is
the only thing that can go wrong. -/
theorem build_outcome (hvalid : c.validate = .ok ())
    (hb : GraphBuilder.Remembers c.load source b) :
    match JoinSpec.stray? [c.root] c.joins with
    | none => ∃ g, (GraphBuilder.build c.load source c.joinDescription b).1 = .ok g
    | some entity =>
      (GraphBuilder.build c.load source c.joinDescription b).1 =
        .error (.disconnectedJoin entity) := by
  obtain ⟨⟨root, hroot⟩, hjoins⟩ := checkJoins_of_validate hvalid
  have hload : c.load ⟨c.root, none, source⟩ = .ok root :=
    bind_eq_ok_iff.mpr ⟨root, hroot, rfl⟩
  obtain ⟨b₁, hnode, h₁⟩ := hb.exists_node hload
  have hlinks := h₁.links_outcome hjoins
  rw [GraphBuilder.build_eq, joinDescription, hnode]
  dsimp only [GraphBuilder.andThen]
  cases hstray : JoinSpec.stray? [c.root] c.joins with
  | none =>
      rw [hstray] at hlinks
      obtain ⟨ls, b₂, hlinks⟩ := hlinks
      exact ⟨⟨root, ls⟩, by rw [hlinks]⟩
  | some entity =>
      rw [hstray] at hlinks
      obtain ⟨b₂, hlinks⟩ := hlinks
      rw [hlinks]

end Catalog

end CriteriaQuery
