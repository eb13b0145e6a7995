import CriteriaQuery.Catalog.Basic

/-!
# Loaders that change their answers

A loader may refuse a request and answer it later. What a builder counts as loads are the requests
that were answered. A request that was refused was made all the same, so the count falls behind
with the first one.
-/

namespace CriteriaQuery

variable {α β : Type}

/-- What two steps keep is kept by the one after the other. -/
theorem GraphBuilder.keeps_andThen {P : GraphBuilder → Prop}
    {x : Except CatalogError α × GraphBuilder}
    {next : α → GraphBuilder → Except CatalogError β × GraphBuilder} (hx : P x.2)
    (hnext : ∀ a b, P b → P (next a b).2) : P (andThen x next).2 := by
  obtain ⟨_ | a, b⟩ := x
  · exact hx
  · exact hnext a b hx

namespace ChangingLoader

open GraphBuilder (keeps_andThen)

variable {load : ChangingLoader} {source : String} {b : GraphBuilder}

/-! ### What builders keep -/

section Keeps

variable {P : GraphBuilder → Prop}
  (hnode : ∀ entity field b, P b → P (node load source entity field b).2)

include hnode

theorem keeps_link {connected : List String} {spec : JoinSpec} (h : P b) :
    P (link load source connected spec b).2 := by
  unfold link
  split
  · exact h
  · split
    · exact h
    · apply keeps_andThen (hnode _ _ b h)
      intro left b₁ h₁
      apply keeps_andThen (hnode _ _ b₁ h₁)
      exact fun right b₂ h₂ => h₂

theorem keeps_links {connected : List String} {specs : List JoinSpec} (h : P b) :
    P (links load source connected specs b).2 := by
  induction specs generalizing connected b with
  | nil => exact h
  | cons spec specs ih =>
      apply keeps_andThen (keeps_link hnode h)
      intro l b₁ h₁
      apply keeps_andThen (ih h₁)
      exact fun ls b₂ h₂ => h₂

/-- What asking for a table keeps is kept while a graph is built, also where that fails. -/
theorem keeps_build {d : JoinDescription} (h : P b) : P (build load source d b).2 := by
  apply keeps_andThen (hnode _ _ b h)
  intro root b₁ h₁
  apply keeps_andThen (keeps_links hnode h₁)
  exact fun ls b₂ h₂ => h₂

end Keeps

/-! ### The count of loads -/

/-- The answers of the loader to requests in order, given those that were made before. -/
def replies (load : ChangingLoader) :
    List LoadRequest → List LoadRequest → List (Except CatalogError TableNode)
  | _, [] => []
  | before, request :: rest => load before request :: replies load (before ++ [request]) rest

theorem replies_concat (before requests : List LoadRequest) (request : LoadRequest) :
    replies load before (requests ++ [request]) =
      replies load before requests ++ [load (before ++ requests) request] := by
  induction requests generalizing before with
  | nil => simp [replies]
  | cons first requests ih => simp [replies, ih]

theorem length_replies (before requests : List LoadRequest) :
    (replies load before requests).length = requests.length := by
  induction requests generalizing before with
  | nil => rfl
  | cons request requests ih => simp [replies, ih]

/-- The loads are the requests that were answered. -/
def Counted (load : ChangingLoader) (b : GraphBuilder) : Prop :=
  b.loads = (replies load [] b.requests).countP Except.isOk

theorem Counted.node (h : Counted load b) (entity : String) (field : Option String) :
    Counted load (node load source entity field b).2 := by
  unfold ChangingLoader.node GraphBuilder.node
  cases b.remembered? entity field with
  | some n => exact h
  | none =>
      dsimp only
      have hreplies : replies load [] (b.requests ++ [⟨entity, field, source⟩]) =
          replies load [] b.requests ++ [load b.requests ⟨entity, field, source⟩] :=
        replies_concat [] b.requests _
      cases hload : load b.requests ⟨entity, field, source⟩ with
      | ok n =>
          rw [hload] at hreplies
          simp only [Counted, hreplies, List.countP_append, List.countP_singleton]
          exact congrArg (· + 1) h
      | error e =>
          rw [hload] at hreplies
          simp only [Counted, hreplies, List.countP_append, List.countP_singleton]
          exact h

/-- The builders that calls lead to, from a fresh one on, whether the calls succeed or not. -/
inductive Reaches (load : ChangingLoader) (source : String) : GraphBuilder → Prop
  | start : Reaches load source {}
  | node {b : GraphBuilder} (h : Reaches load source b) (entity : String) (field : Option String) :
    Reaches load source (node load source entity field b).2
  | build {b : GraphBuilder} (h : Reaches load source b) (d : JoinDescription) :
    Reaches load source (build load source d b).2

theorem counted_of_reaches (h : Reaches load source b) : Counted load b := by
  induction h with
  | start => rfl
  | node _ entity field ih => exact ih.node entity field
  | build _ d ih => exact keeps_build (fun entity field _ h => h.node entity field) ih

/-- The loads that a builder reports are the requests that its loader has answered, so they are all
that it has made exactly as long as none was refused. -/
theorem loads_eq_answered (h : Reaches load source b) :
    b.loads = (replies load [] b.requests).countP Except.isOk ∧
      (b.loads = b.requests.length ↔ ∀ reply ∈ replies load [] b.requests, reply.isOk = true) := by
  have hloads : b.loads = (replies load [] b.requests).countP Except.isOk := counted_of_reaches h
  refine ⟨hloads, ?_⟩
  rw [hloads, ← length_replies [] b.requests]
  exact List.countP_eq_length

/-- A catalog of orders, and perhaps of their items. -/
def ordersCatalog (items : List TableNode) : Catalog where
  root := "Order"
  tables := ⟨"Order", "orders", SortedMap.ofList [("id", "id")], ∅⟩ :: items
  joins := [⟨⟨"Order", "id"⟩, ⟨"Item", "order"⟩, .inner⟩]

/-- A loader from a catalog to which the items are added after three requests. -/
def growing : ChangingLoader := fun before =>
  if before.length < 3 then (ordersCatalog []).load
  else (ordersCatalog [⟨"Item", "items", SortedMap.ofList [("order", "order_id")], ∅⟩]).load

/-- A builder that failed in the middle of a graph, was asked once more, and succeeded. -/
def retried : GraphBuilder :=
  (build growing "default" (ordersCatalog []).joinDescription
    (build growing "default" (ordersCatalog []).joinDescription {}).2).2

theorem reaches_retried : Reaches growing "default" retried := (Reaches.start.build _).build _

/-- Of four requests the third was refused; the fourth is the same one, and counts. -/
theorem loads_eq_answered_retried :
    Reaches growing "default" retried ∧ retried.loads = 3 ∧ retried.requests.length = 4 :=
  ⟨reaches_retried, (loads_eq_answered reaches_retried).1.trans rfl, rfl⟩

/-- So where a join names an entity without a table, one request is missing from the loads. -/
theorem loads_ne_requests_refused :
    (GraphBuilder.build (ordersCatalog []).load "default"
      (ordersCatalog []).joinDescription {}).2.loads = 2 ∧
    (GraphBuilder.build (ordersCatalog []).load "default"
      (ordersCatalog []).joinDescription {}).2.requests.length = 3 :=
  ⟨rfl, rfl⟩

end ChangingLoader

end CriteriaQuery
