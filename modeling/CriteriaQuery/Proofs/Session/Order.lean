import CriteriaQuery.Proofs.Registry.Order
import CriteriaQuery.Proofs.Session.Names

/-!
# The order in which a session registers tables

A session registers the tables of its graph in the order in which the joins bring them in. Nothing
that it knows of names depends on that order, nor does it depend on it whether a table is refused;
only the name that is reported may be another one.
-/

namespace CriteriaQuery

namespace Session

theorem registerAll_concat (ns : List TableNode) (n : TableNode) (r : AliasRegistry) :
    registerAll (ns ++ [n]) r =
      (registerAll ns r >>= fun r => r.register n.table n.fields n.aliases) := by
  induction ns generalizing r with
  | nil =>
      change (r.register n.table n.fields n.aliases >>= registerAll []) =
        r.register n.table n.fields n.aliases
      cases r.register n.table n.fields n.aliases <;> rfl
  | cons first ns ih =>
      rw [List.cons_append, registerAll, registerAll]
      cases r.register first.table first.fields first.aliases with
      | ok r₁ => exact ih r₁
      | error e => rfl

theorem registerAll_eq_ok_iff {ns : List TableNode} {r : AliasRegistry} :
    registerAll ns ∅ = .ok r ↔ AliasRegistry.Registered (ns.map (·.registration)) r := by
  constructor
  · exact fun h => registered_of_registerAll .start h
  · intro h
    induction ns using List.reverseRecOn generalizing r with
    | nil => rw [AliasRegistry.registered_nil_iff.mp h, registerAll]
    | append_singleton ns n ih =>
        rw [List.map_append, List.map_singleton, AliasRegistry.registered_concat_iff] at h
        obtain ⟨r₀, h, hr⟩ := h
        rw [registerAll_concat, ih h]
        exact hr

/-- Tables that come once each may be registered in any order, if no field, alias or field that an
alias stands for has a point in its name: a table is refused in one order exactly if one is in
another, and otherwise the registries are equal. -/
theorem registerAll_perm {ns ns' : List TableNode} (hperm : ns.Perm ns')
    (hnodup : (ns.map (·.table)).Nodup) (hundotted : ∀ n ∈ ns, n.registration.Undotted) :
    ((∃ e, registerAll ns ∅ = .error e) ↔ ∃ e, registerAll ns' ∅ = .error e) ∧
      ∀ r r', registerAll ns ∅ = .ok r → registerAll ns' ∅ = .ok r' → r = r' := by
  have htables : ∀ ns : List TableNode,
      (ns.map (·.registration)).map (·.table) = ns.map (·.table) := by
    intro ns
    simp [TableNode.registration, Function.comp_def]
  have hnodup' : (ns'.map (·.table)).Nodup := (hperm.map _).nodup_iff.mp hnodup
  have hundotted' : ∀ n ∈ ns', n.registration.Undotted := fun n hn =>
    hundotted n (hperm.mem_iff.mpr hn)
  have hok : ∀ r, registerAll ns ∅ = .ok r ↔ registerAll ns' ∅ = .ok r := by
    intro r
    rw [registerAll_eq_ok_iff, registerAll_eq_ok_iff]
    constructor
    · exact fun h => h.perm (hperm.map _) (htables ns ▸ hnodup) (List.forall_mem_map.mpr hundotted)
    · exact fun h => h.perm (hperm.symm.map _) (htables ns' ▸ hnodup')
        (List.forall_mem_map.mpr hundotted')
  constructor
  · cases hr : registerAll ns ∅ with
    | ok r => simp [(hok r).mp hr]
    | error e =>
        cases hr' : registerAll ns' ∅ with
        | ok r' => simp [(hok r').mpr hr'] at hr
        | error e' => simp
  · intro r r' hr hr'
    exact Except.ok.inj (((hok r).mp hr).symm.trans hr')

/-- Tables that share a field, one of them with an alias and the other one with a point in its own
name. -/
def sharingTables : List TableNode := [
  ⟨"Order", "orders", SortedMap.ofList [("id", "id"), ("total", "sum")],
    SortedMap.ofList [("amount", "total"), ("price", "amount")]⟩,
  ⟨"Item", "shop.items", SortedMap.ofList [("id", "pk"), ("order", "order_id")], ∅⟩]

/-- A table with an alias that is a field of the other one. -/
def rivalTables : List TableNode := [
  ⟨"Order", "orders", SortedMap.ofList [("id", "id"), ("total", "sum")], ∅⟩,
  ⟨"Item", "items", SortedMap.ofList [("id", "pk")], SortedMap.ofList [("total", "id")]⟩]

/-- The one pair is registered to the same registry either way, the other one is refused either way,
for an alias that is there before the field or comes after it. -/
theorem registerAll_perm_sharing :
    (∃ r, registerAll sharingTables ∅ = .ok r ∧ registerAll sharingTables.reverse ∅ = .ok r ∧
      r.resolve "price" = .ok ⟨"orders", "sum"⟩ ∧
      r.resolve "id" = .error (.ambiguousAlias "id" "orders" "shop.items")) ∧
    registerAll rivalTables ∅ = .error (.ambiguousAlias "total" "orders" "items") ∧
      ∃ e, registerAll rivalTables.reverse ∅ = .error e := by
  constructor
  · have hundotted : ∀ n ∈ sharingTables, n.registration.Undotted := by
      simp only [sharingTables, List.forall_mem_cons]
      exact ⟨⟨by decide, by decide⟩, ⟨by decide, by decide⟩, nofun⟩
    obtain ⟨-, hsame⟩ := registerAll_perm (List.reverse_perm _).symm (by decide) hundotted
    obtain ⟨r, hr⟩ : ∃ r, registerAll sharingTables ∅ = .ok r := ⟨_, rfl⟩
    obtain ⟨r', hr', hprice, hid⟩ : ∃ r', registerAll sharingTables.reverse ∅ = .ok r' ∧
        r'.resolve "price" = .ok ⟨"orders", "sum"⟩ ∧
        r'.resolve "id" = .error (.ambiguousAlias "id" "orders" "shop.items") := ⟨_, rfl, rfl, rfl⟩
    obtain rfl := hsame r r' hr hr'
    exact ⟨r, hr, hr', hprice, hid⟩
  · have hundotted : ∀ n ∈ rivalTables, n.registration.Undotted := by
      simp only [rivalTables, List.forall_mem_cons]
      exact ⟨⟨by decide, by decide⟩, ⟨by decide, by decide⟩, nofun⟩
    obtain ⟨hfails, -⟩ := registerAll_perm (List.reverse_perm _).symm (by decide) hundotted
    have hrefused : registerAll rivalTables ∅ = .error (.ambiguousAlias "total" "orders" "items") :=
      rfl
    exact ⟨hrefused, hfails.mp ⟨_, hrefused⟩⟩

end Session

end CriteriaQuery
