import CriteriaQuery.Proofs.Catalog.Graph
import CriteriaQuery.Proofs.Catalog.Loads

/-!
# Builders that remember

What a builder remembers cannot be seen from its answers. After any calls, whether they succeeded
or not, it answers the next one as a fresh builder does. All that its memory does is to spare the
loader requests that it has answered before.

## Implementation notes

Both builders of a comparison remember answers of the same loader, perhaps for different requests.
This alone makes their results the same, step by step.
-/

namespace CriteriaQuery

namespace GraphBuilder

variable {load : NodeLoader} {source : String} {b b' : GraphBuilder}

/-! ### Two builders side by side -/

section Alike

variable {α β : Type}

/-- Two steps have the same result, and after each the builder remembers answers of the loader. -/
structure Alike (load : NodeLoader) (source : String)
    (x y : Except CatalogError α × GraphBuilder) : Prop where
  same : x.1 = y.1
  left : Remembers load source x.2
  right : Remembers load source y.2

theorem Alike.andThen {x y : Except CatalogError α × GraphBuilder}
    {next next' : α → GraphBuilder → Except CatalogError β × GraphBuilder}
    (h : Alike load source x y)
    (hnext : ∀ a b b', Remembers load source b → Remembers load source b' →
      Alike load source (next a b) (next' a b')) :
    Alike load source (andThen x next) (andThen y next') := by
  obtain ⟨result, b⟩ := x
  obtain ⟨result', b'⟩ := y
  obtain ⟨hsame, hleft, hright⟩ := h
  obtain rfl : result = result' := hsame
  cases result with
  | error e => exact ⟨rfl, hleft, hright⟩
  | ok a => exact hnext a b b' hleft hright

end Alike

theorem alike_node (h : Remembers load source b) (h' : Remembers load source b')
    (entity : String) (field : Option String) :
    Alike load source (node load source entity field b) (node load source entity field b') where
  same := (h.node entity field).1.trans (h'.node entity field).1.symm
  left := (h.node entity field).2
  right := (h'.node entity field).2

theorem alike_link (h : Remembers load source b) (h' : Remembers load source b')
    (connected : List String) (spec : JoinSpec) :
    Alike load source (link load source connected spec b)
      (link load source connected spec b') := by
  unfold link ChangingLoader.link
  split
  · exact ⟨rfl, h, h'⟩
  · split
    · exact ⟨rfl, h, h'⟩
    · apply (alike_node h h' _ _).andThen
      intro left b₁ b₁' h₁ h₁'
      apply (alike_node h₁ h₁' _ _).andThen
      exact fun right b₂ b₂' h₂ h₂' => ⟨rfl, h₂, h₂'⟩

theorem alike_links (h : Remembers load source b) (h' : Remembers load source b')
    (connected : List String) (specs : List JoinSpec) :
    Alike load source (links load source connected specs b)
      (links load source connected specs b') := by
  induction specs generalizing connected b b' with
  | nil => exact ⟨rfl, h, h'⟩
  | cons spec specs ih =>
      apply (alike_link h h' connected spec).andThen
      intro l b₁ b₁' h₁ h₁'
      apply (ih h₁ h₁' _).andThen
      exact fun ls b₂ b₂' h₂ h₂' => ⟨rfl, h₂, h₂'⟩

theorem alike_build (h : Remembers load source b) (h' : Remembers load source b')
    (d : JoinDescription) :
    Alike load source (build load source d b) (build load source d b') := by
  apply (alike_node h h' d.root none).andThen
  intro root b₁ b₁' h₁ h₁'
  apply (alike_links h₁ h₁' [d.root] d.joins).andThen
  exact fun ls b₂ b₂' h₂ h₂' => ⟨rfl, h₂, h₂'⟩

/-! ### Requests that are spared -/

/-- A request for the same entity and field comes later only if it was not answered before, and
what was answered is remembered. -/
structure Sparing (load : NodeLoader) (b : GraphBuilder) : Prop where
  remembered : ∀ r ∈ b.requests, ∀ n, load r = .ok n → ∃ n', b.remembered? r.entity r.field = some n'
  apart : b.requests.Pairwise fun r r' =>
    r.entity = r'.entity → r.field = r'.field → ∀ n, load r ≠ .ok n

theorem sparing_start (load : NodeLoader) : Sparing load {} where
  remembered := by simp
  apart := List.Pairwise.nil

/-- What is remembered stays so when more is. -/
theorem remembered?_cons {entity entity' : String} {field field' : Option String}
    {n n' : TableNode} (h : b.remembered? entity' field' = some n')
    (hmemo : b'.memo = ((entity, field), n) :: b.memo) :
    ∃ n'', b'.remembered? entity' field' = some n'' := by
  by_cases hkey : (entity, field) = (entity', field')
  · exact ⟨n, by simp [remembered?, hmemo, hkey]⟩
  · exact ⟨n', by simpa [remembered?, hmemo, hkey] using h⟩

theorem Sparing.node (h : Sparing load b) (entity : String) (field : Option String) :
    Sparing load (node load source entity field b).2 := by
  unfold GraphBuilder.node
  cases hmemo : b.remembered? entity field with
  | some n => exact h
  | none =>
      dsimp only
      -- an earlier request for the entity and the field was not answered, or it were remembered
      have hapart : (b.requests ++ [LoadRequest.mk entity field source]).Pairwise fun r r' =>
          r.entity = r'.entity → r.field = r'.field → ∀ n, load r ≠ .ok n := by
        rw [List.pairwise_append]
        refine ⟨h.apart, List.pairwise_singleton _ _, ?_⟩
        intro r hr r' hr' hentity hfield n hload
        obtain rfl := List.mem_singleton.mp hr'
        obtain ⟨n', hn'⟩ := h.remembered r hr n hload
        rw [hentity, hfield, hmemo] at hn'
        cases hn'
      cases hload : load ⟨entity, field, source⟩ with
      | ok n =>
          refine ⟨?_, hapart⟩
          intro r hr n' hr'
          rcases List.mem_append.mp hr with hr | hr
          · obtain ⟨n'', hn''⟩ := h.remembered r hr n' hr'
            exact remembered?_cons hn'' rfl
          · obtain rfl := List.mem_singleton.mp hr
            exact ⟨n, by simp [remembered?]⟩
      | error e =>
          refine ⟨?_, hapart⟩
          intro r hr n' hr'
          rcases List.mem_append.mp hr with hr | hr
          · exact h.remembered r hr n' hr'
          · obtain rfl := List.mem_singleton.mp hr
            rw [hload] at hr'
            cases hr'

theorem Sparing.build (h : Sparing load b) (d : JoinDescription) :
    Sparing load (build load source d b).2 :=
  ChangingLoader.keeps_build (fun entity field _ h => h.node entity field) h

/-! ### Calls one after the other -/

/-- A call on a builder. -/
inductive Call
  | node (entity : String) (field : Option String)
  | build (description : JoinDescription)

/-- What a call gives. -/
inductive Given
  | node (node : TableNode)
  | graph (graph : JoinGraph)

/-- What a call gives, or why it fails, and the builder after it. -/
def call (load : NodeLoader) (source : String) (b : GraphBuilder) :
    Call → Except CatalogError Given × GraphBuilder
  | .node entity field =>
    ((node load source entity field b).1.map .node, (node load source entity field b).2)
  | .build d => ((build load source d b).1.map .graph, (build load source d b).2)

/-- The results of calls one after the other, and the builder after them. -/
def callAll (load : NodeLoader) (source : String) :
    List Call → GraphBuilder → List (Except CatalogError Given) × GraphBuilder
  | [], b => ([], b)
  | c :: cs, b =>
    ((call load source b c).1 :: (callAll load source cs (call load source b c).2).1,
      (callAll load source cs (call load source b c).2).2)

theorem alike_call (h : Remembers load source b) (h' : Remembers load source b') (c : Call) :
    Alike load source (call load source b c) (call load source b' c) := by
  cases c with
  | node entity field =>
      obtain ⟨hsame, hleft, hright⟩ := alike_node h h' entity field
      exact ⟨congrArg (Except.map Given.node) hsame, hleft, hright⟩
  | build d =>
      obtain ⟨hsame, hleft, hright⟩ := alike_build h h' d
      exact ⟨congrArg (Except.map Given.graph) hsame, hleft, hright⟩

theorem Sparing.call (h : Sparing load b) (c : Call) : Sparing load (call load source b c).2 := by
  cases c with
  | node entity field => exact h.node entity field
  | build d => exact h.build d

theorem results_callAll (h : Remembers load source b) (cs : List Call) :
    (callAll load source cs b).1 = cs.map fun c => (GraphBuilder.call load source {} c).1 := by
  induction cs generalizing b with
  | nil => rfl
  | cons c cs ih =>
      have hcall := alike_call h (remembers_start load source) c
      simp only [callAll, List.map_cons, hcall.same, ih hcall.left]

theorem Sparing.callAll (h : Sparing load b) (cs : List Call) :
    Sparing load (callAll load source cs b).2 := by
  induction cs generalizing b with
  | nil => exact h
  | cons c cs ih => exact ih (h.call c)

/-- Each of a list of calls gives what it gives of a fresh builder, the same table or graph or the
same error, and no request that was answered is followed by one for the same entity and field. -/
theorem callAll_eq_fresh (load : NodeLoader) (source : String) (cs : List Call) :
    (callAll load source cs {}).1 = cs.map (fun c => (call load source {} c).1) ∧
      (callAll load source cs {}).2.requests.Pairwise fun r r' =>
        r.entity = r'.entity → r.field = r'.field → ∀ n, load r ≠ .ok n :=
  ⟨results_callAll (remembers_start load source) cs, ((sparing_start load).callAll cs).apart⟩

end GraphBuilder

end CriteriaQuery
