import CriteriaQuery.Proofs.Cache.Kept
import CriteriaQuery.Proofs.Catalog.Requests
import CriteriaQuery.Proofs.Session.Recency

/-!
# Sessions that consulted an entity

The key of a session names the entities of its description, and these are the entities that the
loader was called for when the session was built. So if the metadata of an entity changes, an
invalidation by the key takes away the sessions whose builds asked for the entity, and leaves the
others as they are.

## Implementation notes

The loaders of a run may differ from one another, for metadata changes while it goes on. A session
is therefore told to be the one that a certain visit of the run built.
-/

namespace CriteriaQuery

theorem SessionKey.Proper.contains_iff {key : SessionKey} (h : key.Proper) {entity : String} :
    key.entities.contains entity = true ↔ entity ∈ key.description.entities := by
  rw [h]
  exact SortedSet.contains_ofList

/-- A session is built after its graph. -/
theorem Session.exists_graph_of_build {load : NodeLoader} {source : String} {d : JoinDescription}
    {dialect : Dialect} {limits : PageLimits} {s : Session} {b : GraphBuilder}
    (h : Session.build load source d dialect limits = (.ok s, b)) :
    ∃ g, GraphBuilder.build load source d {} = (.ok g, b) := by
  unfold build at h
  split at h
  · simp at h
  · next g b' hgraph =>
      obtain ⟨-, rfl⟩ := Prod.mk.inj h
      exact ⟨g, hgraph⟩

namespace SessionVisit

variable {ε : Type}

/-- A visit that has sessions loaded, for keys with the entities of their descriptions, or that
invalidates keys. -/
def Regular : SessionVisit ε → Prop
  | .build _ _ => False
  | .load _ key => key.Proper
  | _ => True

/-- The visit of a position built the session of a key: it is the first one that was answered with
the session, and its build left a builder behind. -/
structure Built (visits : List (SessionVisit ε))
    (answers : List (Answer Session (ε ⊕ CatalogError))) (i : Nat) (load : NodeLoader)
    (key : SessionKey) (m : Made Session) (b : GraphBuilder) : Prop where
  visit : visits[i]? = some (.load load key)
  answer : answers[i]? = some (.value m)
  first : ∀ j < i, answers[j]? ≠ some (.value m)
  built : Session.build load key.source key.description key.dialect key.limits = (.ok m.value, b)

theorem exists_built {visits : List (SessionVisit ε)}
    {answers : List (Answer Session (ε ⊕ CatalogError))} (hregular : ∀ v ∈ visits, v.Regular)
    {i : Nat} {key : SessionKey} {m : Made Session}
    (h : Visit.Makes (visits.map visit) answers i key m) :
    key.Proper ∧ ∃ load b, Built visits answers i load key m b := by
  have hvisit := h.visit
  rw [List.getElem?_map] at hvisit
  obtain ⟨v, hv, hfetch⟩ := Option.map_eq_some_iff.mp hvisit
  have hv' := hregular v (List.mem_of_getElem? hv)
  cases v with
  | build key' result => exact hv'.elim
  | load load key' =>
      obtain ⟨rfl, hresult⟩ : key' = key ∧
          (Session.ofKey load key').mapError Sum.inr = (.ok m.value : Except (ε ⊕ _) Session) := by
        simpa [visit] using hfetch
      exact ⟨hv', load, _, hv, h.answer, h.first, Prod.ext (mapError_eq_ok_iff.mp hresult) rfl⟩
  | invalidateKey key' => simp [visit] at hfetch
  | invalidateEntity entity => simp [visit] at hfetch
  | clear => simp [visit] at hfetch

end SessionVisit

/-- A graph is built by calls of the loader for the entities of the description, and no others. An
invalidation by an entity takes away the sessions whose builds called the loader for it. All other
sessions are still there, and are the same. -/
theorem SessionCache.invalidateEntity_forgets {ε : Type} (policy : CachePolicy)
    (hon : policy.enabled = true) (visits : List (SessionVisit ε))
    (hregular : ∀ v ∈ visits, v.Regular) (entity : String) :
    (∀ load source d g b, GraphBuilder.build load source d {} = (.ok g, b) →
      ∀ e, e ∈ b.asked ↔ e ∈ d.entities) ∧
    ∃ answers, ∃ c c' : SessionCache,
      SessionVisit.runAll? { policy } visits = some (answers, c) ∧
        c.invalidateEntity? entity = some c' ∧
        ∀ key, ∃ found, (c.get? key).map Prod.fst = some found ∧
          (found = none → (c'.get? key).map Prod.fst = some none) ∧
          ∀ m, found = some m → ∃ i load b, SessionVisit.Built visits answers i load key m b ∧
            (c'.get? key).map Prod.fst = some (if entity ∈ b.asked then none else some m) := by
  have hasked : ∀ load source d g b, GraphBuilder.build load source d {} = (.ok g, b) →
      ∀ e, e ∈ b.asked ↔ e ∈ d.entities := by
    intro load source d g b hbuild e
    have hasks := GraphBuilder.asks_build GraphBuilder.accounted_start hbuild
    simpa [GraphBuilder.asked] using hasks.mem_iff e
  refine ⟨hasked, ?_⟩
  obtain ⟨c, hrun, hrefines, hpolicy⟩ :=
    Visit.exists_runAll (Cache.refines_start policy) hon (visits.map SessionVisit.visit)
  obtain ⟨c', hinvalidate, hrefines', hpolicy'⟩ :=
    hrefines.exists_invalidate fun k => k.entities.contains entity
  have hget := hrefines.free.get?_eq (hpolicy ▸ hon)
  have hget' := hrefines'.free.get?_eq (hpolicy' ▸ hpolicy ▸ hon)
  refine ⟨_, c, c', (SessionVisit.runAll?_eq _ visits).trans hrun, hinvalidate, fun key => ?_⟩
  refine ⟨c.content? key, hget key, ?_, ?_⟩
  · intro hnone
    rw [hget', hrefines.content?_remove hrefines', hnone, ite_self]
  · intro m hm
    have hstart : Recency.Numbered ({} : Recency SessionKey Session) := nofun
    obtain ⟨-, i, hmakes⟩ :=
      (hstart.exists_makes (hrefines.mem_entries_iff.mpr hm)).resolve_left nofun
    obtain ⟨hproper, load, b, hbuilt⟩ := SessionVisit.exists_built hregular hmakes
    obtain ⟨g, hgraph⟩ := Session.exists_graph_of_build hbuilt.built
    have hsame : key.entities.contains entity = true ↔ entity ∈ b.asked := by
      rw [hproper.contains_iff, hasked load key.source key.description g b hgraph]
    refine ⟨i, load, b, hbuilt, ?_⟩
    rw [hget', hrefines.content?_remove hrefines', hm, if_congr hsame rfl rfl]

/-- A loader whose tables are called like their entities and have nothing but ids. -/
def idTable : NodeLoader :=
  fun request => .ok ⟨request.entity, request.entity, SortedMap.ofList [("id", "id")], ∅⟩

/-- The key of the sessions of a table to which another one is joined. -/
def joinedKey : SessionKey :=
  .of "default" ⟨"Order", [⟨⟨"Order", "id"⟩, ⟨"Item", "id"⟩, .inner⟩]⟩ .sql .mysql {}

/-- Of two sessions the one is gone whose build asked for the entity. -/
theorem SessionCache.invalidateEntity_forgets_joined : ∃ joined single, ∃ c c' : SessionCache,
    SessionVisit.runAll? { policy := {} }
        ([.load idTable joinedKey, .load idTable tableKey] : List (SessionVisit Empty)) =
      some ([.value ⟨0, joined⟩, .value ⟨1, single⟩], c) ∧
    c.invalidateEntity? "Item" = some c' ∧
    (c.get? joinedKey).map Prod.fst = some (some ⟨0, joined⟩) ∧
    (c'.get? joinedKey).map Prod.fst = some none ∧
    (c'.get? tableKey).map Prod.fst = some (some ⟨1, single⟩) := by
  obtain ⟨hasked, answers, c, c', hrun, hinvalidate, hkeys⟩ :=
    invalidateEntity_forgets {} rfl
      ([.load idTable joinedKey, .load idTable tableKey] : List (SessionVisit Empty))
      (by simp [SessionVisit.Regular, joinedKey, tableKey, SessionKey.proper_of]) "Item"
  have hforgets : ∀ key m, (c.get? key).map Prod.fst = some (some m) →
      (c'.get? key).map Prod.fst =
        some (if "Item" ∈ key.description.entities then none else some m) := by
    intro key m hget
    obtain ⟨found, hfound, -, hbuilt⟩ := hkeys key
    obtain ⟨i, load, b, hbuilt, hget'⟩ := hbuilt m (Option.some.inj (hfound.symm.trans hget))
    obtain ⟨g, hgraph⟩ := Session.exists_graph_of_build hbuilt.built
    rw [hget', if_congr (hasked load key.source key.description g b hgraph "Item") rfl rfl]
  obtain ⟨joined, single, c₁, hrun', hjoined, hsingle⟩ : ∃ joined single, ∃ c₁ : SessionCache,
      SessionVisit.runAll? { policy := {} }
          ([.load idTable joinedKey, .load idTable tableKey] : List (SessionVisit Empty)) =
        some ([.value ⟨0, joined⟩, .value ⟨1, single⟩], c₁) ∧
      (c₁.get? joinedKey).map Prod.fst = some (some ⟨0, joined⟩) ∧
      (c₁.get? tableKey).map Prod.fst = some (some ⟨1, single⟩) := ⟨_, _, _, rfl, rfl, rfl⟩
  obtain ⟨rfl, rfl⟩ := Prod.mk.inj (Option.some.inj (hrun.symm.trans hrun'))
  exact ⟨joined, single, c, c', hrun, hinvalidate, hjoined, hforgets joinedKey _ hjoined,
    hforgets tableKey _ hsingle⟩

end CriteriaQuery
