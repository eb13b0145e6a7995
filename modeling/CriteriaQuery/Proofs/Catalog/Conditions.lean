import CriteriaQuery.Proofs.Catalog.Connected

/-!
# What makes a catalog valid

A catalog is checked in order, table by table and then join by join, against what has come before.
What the checks amount to depends on no order: entities, table names and the entities that joins
bring in are distinct, tables are sound, and the root and both ends of every join are declared.
-/

namespace CriteriaQuery

theorem TableNode.isSome_canonicalField?_iff {t : TableNode} {name : String} :
    (t.canonicalField? name).isSome = true ↔ name ∈ t.fields.keys ∨ name ∈ t.aliases.keys := by
  rw [SortedMap.mem_keys_iff, SortedMap.mem_keys_iff, ← SortedMap.contains_iff_exists,
    canonicalField?]
  split
  · next hfield => simp [hfield]
  · next hfield => simp [hfield, Option.isSome_iff_exists]

namespace Catalog

variable {c : Catalog} {joined : List String} {specs : List JoinSpec}

/-- The entity is declared, and its table has a field or an alias of the name. -/
def Offers (c : Catalog) (ref : FieldRef) : Prop :=
  ∃ t ∈ c.tables, t.entity = ref.entity ∧
    (ref.field ∈ t.fields.keys ∨ ref.field ∈ t.aliases.keys)

/-- The conditions of a valid catalog. -/
structure WellFormed (c : Catalog) : Prop where
  tables : Distinct c.tables
  root : ∃ t ∈ c.tables, t.entity = c.root
  ends : ∀ spec ∈ c.joins, c.Offers spec.left ∧ c.Offers spec.right
  apart : ∀ spec ∈ c.joins, spec.left.entity ≠ spec.right.entity
  /-- No two joins bring in one entity. -/
  brings : (c.joins.map (·.right.entity)).Nodup
  fresh : ∀ spec ∈ c.joins, spec.right.entity ≠ c.root

/-! ### Single checks -/

/-- Where entities are declared once, the table found is the one that declares the entity. -/
theorem tableFor_eq_ok_iff (h : Distinct c.tables) {entity : String} {t : TableNode} :
    c.tableFor entity = .ok t ↔ t ∈ c.tables ∧ t.entity = entity := by
  constructor
  · exact tableFor_eq_ok
  · rintro ⟨ht, rfl⟩
    unfold tableFor
    split
    · next found hfound =>
        have hentity : found.entity = t.entity := by simpa using List.find?_some hfound
        rw [h.eq_of_entity (List.mem_of_find?_eq_some hfound) ht hentity]
    · next hnone =>
        have hdiff := List.find?_eq_none.mp hnone t ht
        simp at hdiff

theorem checkEnd_eq_ok_iff (h : Distinct c.tables) {ref : FieldRef} :
    c.checkEnd ref = .ok () ↔ c.Offers ref := by
  constructor
  · intro hend
    obtain ⟨t, field, ht, hfield⟩ := exists_of_checkEnd hend
    obtain ⟨hmem, hentity⟩ := tableFor_eq_ok ht
    exact ⟨t, hmem, hentity, TableNode.isSome_canonicalField?_iff.mp (by simp [hfield])⟩
  · rintro ⟨t, hmem, hentity, hname⟩
    have ht := (tableFor_eq_ok_iff h).mpr ⟨hmem, hentity⟩
    simp [checkEnd, ht, TableNode.isSome_canonicalField?_iff.mpr hname]

/-! ### Joins -/

/-- Joins are valid if their ends are, no two ends of a join are of one entity, and no entity is
brought in that is there already or that another join brings in. -/
theorem checkJoins_eq_ok_iff : c.checkJoins joined specs = .ok () ↔
    (∀ spec ∈ specs, c.checkEnd spec.left = .ok () ∧ c.checkEnd spec.right = .ok ()) ∧
      (∀ spec ∈ specs, spec.left.entity ≠ spec.right.entity) ∧
      (specs.map (·.right.entity)).Nodup ∧ ∀ spec ∈ specs, spec.right.entity ∉ joined := by
  induction specs generalizing joined with
  | nil => simp [checkJoins]
  | cons spec specs ih =>
      have hnew : spec.right.entity ∉ specs.map (·.right.entity) ↔
          ∀ spec' ∈ specs, spec'.right.entity ≠ spec.right.entity := by
        simp
      rw [checkJoins_cons_iff, ih, List.map_cons, List.nodup_cons, hnew]
      simp only [List.forall_mem_cons]
      simp only [List.mem_cons, not_or, forall_and]
      tauto

/-- A catalog is valid exactly if it meets the conditions. -/
theorem validate_eq_ok_iff (c : Catalog) : c.validate = .ok () ↔ c.WellFormed := by
  have hroot : (∃ t, c.tableFor c.root = .ok t ∧ c.checkJoins [c.root] c.joins = .ok ()) ↔
      (∃ t, c.tableFor c.root = .ok t) ∧ c.checkJoins [c.root] c.joins = .ok () :=
    exists_and_right
  constructor
  · intro h
    obtain ⟨_, htables, h⟩ := bind_eq_ok_iff.mp h
    obtain ⟨hdistinct, -⟩ := checkTables_eq_ok_iff.mp htables
    obtain ⟨⟨t, ht⟩, hjoins⟩ := hroot.mp (bind_eq_ok_iff.mp h)
    obtain ⟨hends, hapart, hbrings, hfresh⟩ := checkJoins_eq_ok_iff.mp hjoins
    simp only [checkEnd_eq_ok_iff hdistinct] at hends
    exact ⟨hdistinct, ⟨t, (tableFor_eq_ok_iff hdistinct).mp ht⟩, hends, hapart, hbrings,
      by simpa using hfresh⟩
  · rintro ⟨hdistinct, ⟨t, ht⟩, hends, hapart, hbrings, hfresh⟩
    have htables : checkTables [] [] c.tables = .ok () :=
      checkTables_eq_ok_iff.mpr ⟨hdistinct, by simp⟩
    simp only [← checkEnd_eq_ok_iff hdistinct] at hends
    have hjoins : c.checkJoins [c.root] c.joins = .ok () :=
      checkJoins_eq_ok_iff.mpr ⟨hends, hapart, hbrings, by simpa using hfresh⟩
    refine bind_eq_ok_iff.mpr ⟨(), htables, bind_eq_ok_iff.mpr ?_⟩
    exact hroot.mpr ⟨⟨t, (tableFor_eq_ok_iff hdistinct).mpr ht⟩, hjoins⟩

end Catalog

end CriteriaQuery
