import CriteriaQuery.Catalog.Basic
import CriteriaQuery.Proofs.Outcome
import Mathlib.Data.List.Nodup

/-!
# Valid catalogs

What is known of the tables of a catalog that is valid: each has a name and fields, its aliases
stand for fields of it, and no two of them have an entity or a name in common. So an entity or a
name is as good as the table itself.
-/

namespace CriteriaQuery

/-- A table with a name and fields, whose aliases stand for fields of it. -/
structure TableNode.Sound (t : TableNode) : Prop where
  named : Text.isBlank t.table = false
  nonempty : t.fields.isEmpty = false
  targets : ∀ a ∈ t.aliases.entries, ∃ column, t.fields.get? a.2 = some column

namespace Catalog

theorem danglingAlias?_eq_none_iff {t : TableNode} :
    danglingAlias? t = none ↔
      ∀ a ∈ t.aliases.entries, ∃ column, t.fields.get? a.2 = some column := by
  simp [danglingAlias?, SortedMap.contains_iff_exists]

theorem tableFlaw?_eq_none_iff {entities tables : List String} {t : TableNode} :
    tableFlaw? entities tables t = none ↔ t.Sound ∧ t.entity ∉ entities ∧ t.table ∉ tables := by
  unfold tableFlaw?
  constructor
  · intro h
    split at h
    · simp at h
    · next hnamed =>
        split at h
        · simp at h
        · next hentity =>
            split at h
            · simp at h
            · next htable =>
                split at h
                · simp at h
                · next hfields =>
                    have htargets := danglingAlias?_eq_none_iff.mp (Option.map_eq_none_iff.mp h)
                    exact ⟨⟨by simpa using hnamed, by simpa using hfields, htargets⟩, hentity,
                      htable⟩
  · rintro ⟨hsound, hentity, htable⟩
    simp [hsound.named, hsound.nonempty, hentity, htable,
      danglingAlias?_eq_none_iff.mpr hsound.targets]

/-- Tables without a flaw: each is sound, and no two share an entity or a name. -/
structure Distinct (tables : List TableNode) : Prop where
  sound : ∀ t ∈ tables, t.Sound
  entities : (tables.map (·.entity)).Nodup
  names : (tables.map (·.table)).Nodup

theorem distinct_nil : Distinct [] where
  sound := by simp
  entities := List.nodup_nil
  names := List.nodup_nil

theorem distinct_cons_iff {t : TableNode} {tables : List TableNode} :
    Distinct (t :: tables) ↔
      t.Sound ∧ Distinct tables ∧ ∀ t' ∈ tables, t'.entity ≠ t.entity ∧ t'.table ≠ t.table := by
  constructor
  · rintro ⟨hsound, hentities, hnames⟩
    obtain ⟨hentity, hentities⟩ := List.nodup_cons.mp hentities
    obtain ⟨hname, hnames⟩ := List.nodup_cons.mp hnames
    refine ⟨hsound t List.mem_cons_self, ⟨?_, hentities, hnames⟩, ?_⟩
    · exact fun t' ht' => hsound t' (List.mem_cons_of_mem t ht')
    · intro t' ht'
      exact ⟨fun heq => hentity (List.mem_map.mpr ⟨t', ht', heq⟩),
        fun heq => hname (List.mem_map.mpr ⟨t', ht', heq⟩)⟩
  · rintro ⟨hsound, hdistinct, hapart⟩
    constructor
    · intro t' ht'
      rcases List.mem_cons.mp ht' with rfl | ht'
      · exact hsound
      · exact hdistinct.sound t' ht'
    · rw [List.map_cons, List.nodup_cons]
      refine ⟨fun hmem => ?_, hdistinct.entities⟩
      obtain ⟨t', ht', heq⟩ := List.mem_map.mp hmem
      exact (hapart t' ht').1 heq
    · rw [List.map_cons, List.nodup_cons]
      refine ⟨fun hmem => ?_, hdistinct.names⟩
      obtain ⟨t', ht', heq⟩ := List.mem_map.mp hmem
      exact (hapart t' ht').2 heq

theorem Distinct.eq_of_entity {tables : List TableNode} (h : Distinct tables) {t t' : TableNode}
    (ht : t ∈ tables) (ht' : t' ∈ tables) (heq : t.entity = t'.entity) : t = t' :=
  List.inj_on_of_nodup_map h.entities ht ht' heq

theorem Distinct.eq_of_name {tables : List TableNode} (h : Distinct tables) {t t' : TableNode}
    (ht : t ∈ tables) (ht' : t' ∈ tables) (heq : t.table = t'.table) : t = t' :=
  List.inj_on_of_nodup_map h.names ht ht' heq

theorem checkTables_eq_ok_iff {entities names : List String} {tables : List TableNode} :
    checkTables entities names tables = .ok () ↔
      Distinct tables ∧ ∀ t ∈ tables, t.entity ∉ entities ∧ t.table ∉ names := by
  induction tables generalizing entities names with
  | nil => simp [checkTables, distinct_nil]
  | cons t tables ih =>
      rw [checkTables, distinct_cons_iff]
      cases hflaw : tableFlaw? entities names t with
      | none =>
          obtain ⟨hsound, hentity, hname⟩ := tableFlaw?_eq_none_iff.mp hflaw
          simp only [ih, List.mem_cons, not_or, forall_eq_or_imp]
          constructor
          · rintro ⟨hdistinct, hnew⟩
            refine ⟨⟨hsound, hdistinct, fun t' ht' => ?_⟩, ⟨hentity, hname⟩, fun t' ht' => ?_⟩
            · exact ⟨(hnew t' ht').1.1, (hnew t' ht').2.1⟩
            · exact ⟨(hnew t' ht').1.2, (hnew t' ht').2.2⟩
          · rintro ⟨⟨-, hdistinct, hapart⟩, -, hnew⟩
            refine ⟨hdistinct, fun t' ht' => ?_⟩
            exact ⟨⟨(hapart t' ht').1, (hnew t' ht').1⟩, (hapart t' ht').2, (hnew t' ht').2⟩
      | some flaw =>
          constructor
          · simp
          · rintro ⟨⟨hsound, -, -⟩, hnew⟩
            have hnone := tableFlaw?_eq_none_iff.mpr ⟨hsound, hnew t List.mem_cons_self⟩
            simp [hflaw] at hnone

/-! ### Looking tables up -/

theorem tableFor_eq_ok {c : Catalog} {entity : String} {t : TableNode}
    (h : c.tableFor entity = .ok t) : t ∈ c.tables ∧ t.entity = entity := by
  unfold tableFor at h
  split at h
  · next t' hfind =>
      obtain rfl := Except.ok.inj h
      exact ⟨List.mem_of_find?_eq_some hfind, by simpa using List.find?_some hfind⟩
  · simp at h

/-- The table of the entity, whatever field is asked for. -/
theorem tableFor_of_load {c : Catalog} {request : LoadRequest} {t : TableNode}
    (h : c.load request = .ok t) : c.tableFor request.entity = .ok t := by
  obtain ⟨t', htable, h⟩ := bind_eq_ok_iff.mp h
  split at h
  · rw [htable, pure_eq_ok_iff.mp h]
  · split at h
    · rw [htable, pure_eq_ok_iff.mp h]
    · simp at h

theorem distinct_of_validate {c : Catalog} (h : c.validate = .ok ()) : Distinct c.tables := by
  obtain ⟨_, htables, -⟩ := bind_eq_ok_iff.mp h
  exact (checkTables_eq_ok_iff.mp htables).1

end Catalog

end CriteriaQuery
