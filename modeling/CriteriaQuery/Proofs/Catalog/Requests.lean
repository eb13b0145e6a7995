import CriteriaQuery.Catalog.Graph

/-!
# What a loader is called for

A builder that succeeds has called its loader for the entities that the description names, and for
no others. Where it answered from memory, the loader was called for the same entity before.
-/

namespace CriteriaQuery

namespace GraphBuilder

variable {load : NodeLoader} {source : String} {b b' b'' : GraphBuilder}

/-- The entities that the loader was called for. -/
def asked (b : GraphBuilder) : List String := b.requests.map (·.entity)

/-- The loader was called for the entities whose tables are remembered. -/
def Accounted (b : GraphBuilder) : Prop :=
  ∀ entity field n, b.remembered? entity field = some n → entity ∈ b.asked

theorem accounted_start : Accounted {} := by
  intro entity field n h
  simp [remembered?] at h

/-- One builder comes after another, and between them the loader was called for entities of a list
that it had not been called for before. -/
structure Asks (b : GraphBuilder) (entities : List String) (b' : GraphBuilder) : Prop where
  accounted : b'.Accounted
  mem_iff : ∀ e, e ∈ b'.asked ↔ e ∈ b.asked ∨ e ∈ entities

theorem Asks.refl (h : b.Accounted) : Asks b [] b := ⟨h, fun e => by simp⟩

theorem Asks.trans {es es' : List String} (h : Asks b es b') (h' : Asks b' es' b'') :
    Asks b (es ++ es') b'' where
  accounted := h'.accounted
  mem_iff e := by rw [h'.mem_iff, h.mem_iff, List.mem_append, or_assoc]

theorem asks_node (h : b.Accounted) {entity : String} {field : Option String} {n : TableNode}
    (hnode : node load source entity field b = (.ok n, b')) : Asks b [entity] b' := by
  unfold node at hnode
  split at hnode
  · next hmemo =>
      obtain ⟨-, rfl⟩ := Prod.mk.inj hnode
      refine ⟨h, fun e => ?_⟩
      constructor
      · exact Or.inl
      · rintro (he | he)
        · exact he
        · exact List.mem_singleton.mp he ▸ h entity field _ hmemo
  · dsimp only at hnode
    split at hnode
    · obtain ⟨-, rfl⟩ := Prod.mk.inj hnode
      have hasked : ∀ e, e ∈ (b.requests ++ [LoadRequest.mk entity field source]).map (·.entity) ↔
          e ∈ b.asked ∨ e ∈ [entity] := by
        intro e
        rw [List.map_append, List.mem_append]
        rfl
      refine ⟨?_, hasked⟩
      intro entity' field' n' hmemo
      apply (hasked entity').mpr
      by_cases hkey : (entity, field) = (entity', field')
      · exact Or.inr (List.mem_singleton.mpr (Prod.mk.inj hkey).1.symm)
      · apply Or.inl
        apply h entity' field' n'
        simpa [remembered?, List.find?_cons, hkey] using hmemo
    · simp at hnode

theorem asks_link (h : b.Accounted) {connected : List String} {spec : JoinSpec} {l : JoinLink}
    (hlink : link load source connected spec b = (.ok l, b')) :
    Asks b [spec.left.entity, spec.right.entity] b' := by
  obtain ⟨-, -, left, b₁, right, hleft, hright, -⟩ := exists_of_link hlink
  have hasks := asks_node h hleft
  exact hasks.trans (asks_node hasks.accounted hright)

theorem asks_links (h : b.Accounted) {connected : List String} {specs : List JoinSpec}
    {ls : List JoinLink} (hlinks : links load source connected specs b = (.ok ls, b')) :
    Asks b (specs.flatMap fun j => [j.left.entity, j.right.entity]) b' := by
  induction specs generalizing connected b ls with
  | nil =>
      obtain ⟨-, rfl⟩ := Prod.mk.inj hlinks
      exact .refl h
  | cons spec specs ih =>
      obtain ⟨l, b₁, rest, hlink, hrest, -⟩ := exists_of_links_cons hlinks
      have hasks := asks_link h hlink
      exact hasks.trans (ih hasks.accounted hrest)

/-- Whoever builds a graph of a description has called the loader for all entities of it. -/
theorem asks_build (h : b.Accounted) {d : JoinDescription} {g : JoinGraph}
    (hbuild : build load source d b = (.ok g, b')) : Asks b d.entities b' := by
  have hmentions : Asks b d.mentions b' := by
    obtain ⟨b₁, hroot, hlinks⟩ := exists_of_build hbuild
    have hasks := asks_node h hroot
    exact hasks.trans (asks_links hasks.accounted hlinks)
  refine ⟨hmentions.accounted, fun e => ?_⟩
  rw [hmentions.mem_iff, JoinDescription.entities, mem_distinct_iff]

end GraphBuilder

end CriteriaQuery
