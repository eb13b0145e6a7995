import CriteriaQuery.Proofs.Registry.Lookup
import CriteriaQuery.Proofs.Registry.Qualified
import Mathlib.Data.List.TakeWhile
import Mathlib.Logic.Unique
import Mathlib.Tactic.Tauto

/-!
# The index of names

Beside the look-up of names stands the index of the names of a column. As long as names hold no
point it is the look-up read backwards: a column is known by a name exactly if its table binds the
name to it. Hence a registry is known from the bindings, the columns that are indexed and the names
that are explicit.

## Implementation notes

A column that has lost all of its names stays in the index, so which columns are there is not known
from the bindings. A name is taken from the column that it meant before twice, as a bare name and as
the bare part of a qualified one; the second time it is gone already.
-/

namespace CriteriaQuery

theorem SortedSet.ext_contains {κ : Type} [KeyOrder κ] {s s' : SortedSet κ}
    (h : ∀ k, SortedMap.contains s k = true ↔ SortedMap.contains s' k = true) : s = s' := by
  apply SortedMap.ext_get?
  intro k
  apply Option.ext
  intro u
  have hk := h k
  rw [SortedMap.contains_iff_exists, SortedMap.contains_iff_exists, Unique.exists_iff,
    Unique.exists_iff] at hk
  exact hk

/-! ### Parts of a name -/

/-- A name that holds a point is a qualified one. -/
theorem exists_eq_qualify {key : String} (h : ¬ Undotted key) :
    ∃ table name, Undotted name ∧ key = ColumnRef.qualify table name := by
  have hpoint : '.' ∈ key.toList.reverse := by simpa [Undotted] using h
  obtain ⟨after, before, hsplit, hafter⟩ := List.eq_append_cons_of_mem hpoint
  refine ⟨String.ofList before.reverse, String.ofList after.reverse, ?_, ?_⟩
  · simpa [Undotted] using hafter
  · apply String.toList_inj.mp
    rw [← List.reverse_reverse key.toList, hsplit]
    simp [ColumnRef.qualify]

namespace AliasRegistry

theorem forall_ne_point {name : String} (h : Undotted name) :
    ∀ c ∈ name.toList.reverse, decide (c ≠ '.') = true := by
  intro c hc
  have hne : c ≠ '.' := by
    rintro rfl
    exact h (List.mem_reverse.mp hc)
  simpa using hne

theorem barePart_of_undotted {name : String} (h : Undotted name) : barePart name = name := by
  rw [barePart, List.takeWhile_eq_self_iff.mpr (forall_ne_point h), List.reverse_reverse,
    String.ofList_toList]

/-- The bare part of a name is what follows its last point, so it holds none. -/
theorem undotted_barePart (name : String) : Undotted (barePart name) := by
  unfold Undotted barePart
  rw [String.toList_ofList, List.mem_reverse]
  intro hpoint
  simpa using List.mem_takeWhile_imp hpoint

theorem barePart_qualify (table name : String) :
    barePart (ColumnRef.qualify table name) = barePart name := by
  have hreverse : (ColumnRef.qualify table name).toList.reverse =
      name.toList.reverse ++ '.' :: table.toList.reverse := by
    simp [ColumnRef.qualify]
  unfold barePart
  rw [hreverse, List.takeWhile_append, List.takeWhile_cons_of_neg (by simp), List.append_nil]
  split
  · next hlength => rw [(List.takeWhile_prefix _).eq_of_length hlength]
  · rfl

/-! ### Names of a column -/

variable {r r' : AliasRegistry} {column c : ColumnRef} {name n : String} {m : Bindings}

/-- Whether a column is in the index. -/
def Indexes (r : AliasRegistry) (column : ColumnRef) : Prop :=
  ∃ names, r.aliases.get? column = some names

/-- Whether a column is known by a name. -/
def Knows (r : AliasRegistry) (column : ColumnRef) (name : String) : Prop :=
  ∃ names, r.aliases.get? column = some names ∧ SortedMap.contains names name = true

theorem Knows.indexes (h : r.Knows c n) : r.Indexes c := by
  obtain ⟨names, hnames, -⟩ := h
  exact ⟨names, hnames⟩

theorem aliases_eq (hindexes : ∀ c, r.Indexes c ↔ r'.Indexes c)
    (hknows : ∀ c n, r.Knows c n ↔ r'.Knows c n) : r.aliases = r'.aliases := by
  apply SortedMap.ext_get?
  intro c
  cases hnames : r.aliases.get? c with
  | none =>
      cases hnames' : r'.aliases.get? c with
      | none => rfl
      | some names =>
          obtain ⟨names', h⟩ := (hindexes c).mpr ⟨names, hnames'⟩
          simp [hnames] at h
  | some names =>
      obtain ⟨names', hnames'⟩ := (hindexes c).mp ⟨names, hnames⟩
      rw [hnames']
      congr 1
      apply SortedSet.ext_contains
      intro n
      simpa [Knows, hnames, hnames'] using hknows c n

theorem indexes_dropName_iff : (r.dropName column name).Indexes c ↔ r.Indexes c := by
  unfold dropName Indexes
  split
  · next names hnames =>
      by_cases hc : c = column
      · simp [hc, hnames]
      · simp [hc]
  · rfl

theorem knows_dropName_iff :
    (r.dropName column name).Knows c n ↔ r.Knows c n ∧ ¬ (c = column ∧ n = name) := by
  unfold dropName Knows
  split
  · next names hnames =>
      by_cases hc : c = column
      · simp [hc, hnames, SortedSet.contains_remove, and_comm]
      · simp [hc]
  · next hnone =>
      constructor
      · rintro ⟨names, hnames, hmem⟩
        refine ⟨⟨names, hnames, hmem⟩, ?_⟩
        rintro ⟨rfl, -⟩
        simp [hnone] at hnames
      · exact And.left

theorem indexes_addName_iff : (r.addName column name).Indexes c ↔ r.Indexes c ∨ c = column := by
  unfold addName Indexes
  by_cases hc : c = column <;> simp [hc]

theorem knows_addName_iff :
    (r.addName column name).Knows c n ↔ r.Knows c n ∨ (c = column ∧ n = name) := by
  unfold addName Knows
  by_cases hc : c = column
  · subst hc
    cases hnames : r.aliases.get? c with
    | none =>
        have hempty : SortedMap.contains (∅ : SortedSet String) n = false := rfl
        simp [SortedSet.contains_add, hempty]
    | some names => simp [SortedSet.contains_add, or_comm]
  · simp [hc]

theorem indexes_rebind_iff : (r.rebind name column).Indexes c ↔ r.Indexes c := by
  unfold rebind
  dsimp only
  split
  · split
    · rfl
    · exact indexes_dropName_iff
  · rfl

/-- The column that a name has meant is no longer known by its bare part. -/
theorem knows_rebind_iff : (r.rebind name column).Knows c n ↔
    r.Knows c n ∧ ¬ (r.owners.get? name = some c ∧ c ≠ column ∧ n = barePart name) := by
  unfold rebind
  dsimp only
  cases howner : r.owners.get? name with
  | none => simp [Knows]
  | some previous =>
      dsimp only
      split
      · next hsame =>
          subst hsame
          constructor
          · exact fun h => ⟨h, fun ⟨hc, hne, _⟩ => hne (Option.some.inj hc).symm⟩
          · exact And.left
      · next hdiff =>
          rw [knows_dropName_iff]
          constructor
          · rintro ⟨h, hne⟩
            refine ⟨h, ?_⟩
            rintro ⟨hc, -, rfl⟩
            exact hne ⟨(Option.some.inj hc).symm, rfl⟩
          · rintro ⟨h, hne⟩
            refine ⟨h, ?_⟩
            rintro ⟨rfl, rfl⟩
            exact hne ⟨rfl, hdiff, rfl⟩

theorem owners_claimField {k : String} (hk : k ≠ name) :
    (r.claimField name column).owners.get? k = r.owners.get? k := by
  unfold claimField
  split
  · rfl
  · split
    · split <;> simp [hk]
    · simp [hk]

theorem indexes_claimField_iff : (r.claimField name column).Indexes c ↔ r.Indexes c := by
  unfold claimField
  split
  · rfl
  · split
    · split
      · exact indexes_rebind_iff
      · rfl
    · exact indexes_rebind_iff

/-- A bare name that only the table has is taken, by its bare part, from the column that it meant
before. -/
theorem knows_claimField_iff : (r.claimField name column).Knows c n ↔
    r.Knows c n ∧ ¬ (r.shared.get? name = none ∧ r.owners.get? name = some c ∧
      c.table = column.table ∧ c ≠ column ∧ n = barePart name) := by
  unfold claimField
  cases hshared : r.shared.get? name with
  | some tables => simp [Knows]
  | none =>
      cases howner : r.owners.get? name with
      | none => simp [knows_rebind_iff, howner]
      | some existing =>
          dsimp only
          split
          · next htable =>
              rw [knows_rebind_iff, howner]
              constructor
              · exact fun ⟨h, hne⟩ => ⟨h, fun ⟨_, hc, _, hdiff, hn⟩ => hne ⟨hc, hdiff, hn⟩⟩
              · rintro ⟨h, hne⟩
                refine ⟨h, ?_⟩
                rintro ⟨hc, hdiff, hn⟩
                obtain rfl := Option.some.inj hc
                exact hne ⟨rfl, rfl, htable, hdiff, hn⟩
          · next htable =>
              constructor
              · intro h
                refine ⟨h, ?_⟩
                rintro ⟨-, hc, hsame, -⟩
                obtain rfl := Option.some.inj hc
                exact htable hsame
              · exact And.left

/-! ### Steps -/

/-- A name of a table means what the table binds it to, qualified, and also bare unless it is shared
or means a column of another table. -/
structure Tracks (r : AliasRegistry) (m : Bindings) (table name : String) : Prop where
  qualified : r.owners.get? (ColumnRef.qualify table name) = m table name
  bare : r.shared.get? name = none → ∀ c, r.owners.get? name = some c → c.table = table →
    m table name = some c

theorem Holds.tracks (h : r.Holds m) (hname : Undotted name) (table : String) :
    r.Tracks m table name where
  qualified := h.qualified table name hname
  bare hshared c howner htable := ((h.bare name hname).unshared hshared table c).mpr ⟨howner, htable⟩

/-- What becomes of the index when a table binds a name to a column. -/
structure Renames (r r' : AliasRegistry) (m : Bindings) (name : String) (column : ColumnRef) :
    Prop where
  indexes : ∀ c, r'.Indexes c ↔ r.Indexes c ∨ c = column
  /-- Another column that the name has meant loses the bare part of it. -/
  knows : ∀ c n, r'.Knows c n ↔
    (r.Knows c n ∧ ¬ (m column.table name = some c ∧ c ≠ column ∧ n = barePart name)) ∨
      (c = column ∧ n = name)

theorem renames_of_registerField {table field : String} (h : r.Tracks m table field)
    (hr : r.registerField table field name = .ok r') : Renames r r' m field ⟨table, name⟩ := by
  rw [eq_of_registerField hr]
  constructor
  · intro c
    rw [indexes_addName_iff, indexes_rebind_iff, indexes_claimField_iff]
  · intro c n
    rw [knows_addName_iff, knows_rebind_iff, knows_claimField_iff,
      owners_claimField (ColumnRef.ne_qualify_self _ _).symm, h.qualified, barePart_qualify]
    -- what the bare name has meant within the table is what the qualified one means
    have hbare := fun hshared => h.bare hshared c
    dsimp only
    tauto

theorem renames_of_registerAlias {table given target : String} (h : r.Tracks m table given)
    (hcolumn : column.table = table)
    (htarget : r.owners.get? (ColumnRef.qualify table target) = some column)
    (hr : r.registerAlias table given target = .ok r') : Renames r r' m given column := by
  obtain ⟨column', htarget', hrival, rfl⟩ := eq_of_registerAlias hr
  obtain rfl := Option.some.inj (htarget.symm.trans htarget')
  obtain ⟨hshared, hfree⟩ := free_of_aliasRival? hrival
  constructor
  · intro c
    rw [indexes_addName_iff]
    apply or_congr_left
    exact indexes_rebind_iff.trans indexes_rebind_iff
  · intro c n
    rw [knows_addName_iff]
    apply or_congr_left
    refine knows_rebind_iff.trans ?_
    rw [knows_rebind_iff, owners_rebind, SortedMap.get?_insert,
      if_neg (ColumnRef.ne_qualify_self _ _).symm, h.qualified, barePart_qualify, hcolumn]
    have hbare : r.owners.get? given = some c → m table given = some c := fun howner =>
      h.bare hshared c howner (hfree c howner)
    tauto

/-- The index is the look-up read backwards. -/
def Inverts (r : AliasRegistry) (m : Bindings) : Prop :=
  ∀ c n, r.Knows c n ↔ m c.table n = some c

/-- The index stays so as long as a name that holds a point is bound to no other column. -/
theorem Inverts.of_renames (h : r.Inverts m) (hown : ∀ t n c, m t n = some c → c.table = t)
    (hsteady : Undotted name ∨ ∀ c, m column.table name = some c → c = column)
    (hstep : Renames r r' m name column) : r'.Inverts (m.bind column.table name column) := by
  intro c n
  have hlost : (m column.table name = some c ∧ c ≠ column ∧ n = barePart name) ↔
      m column.table name = some c ∧ c ≠ column ∧ n = name := by
    rcases hsteady with hname | hsame
    · rw [barePart_of_undotted hname]
    · exact iff_of_false (fun hlost => hlost.2.1 (hsame c hlost.1))
        fun hlost => hlost.2.1 (hsame c hlost.1)
  rw [hstep.knows, h c n, hlost, Bindings.bind]
  by_cases hboth : c.table = column.table ∧ n = name
  · obtain ⟨htable, rfl⟩ := hboth
    rw [if_pos ⟨htable, rfl⟩, htable, Option.some.injEq, eq_comm (a := column)]
    tauto
  · rw [if_neg hboth]
    constructor
    · rintro (⟨hbound, -⟩ | ⟨rfl, rfl⟩)
      · exact hbound
      · exact absurd ⟨rfl, rfl⟩ hboth
    · intro hbound
      refine Or.inl ⟨hbound, ?_⟩
      rintro ⟨hlost, -, rfl⟩
      exact hboth ⟨hown _ _ _ hlost, rfl⟩

end AliasRegistry

end CriteriaQuery
