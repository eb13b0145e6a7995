import CriteriaQuery.Catalog.AliasRegistry
import CriteriaQuery.Proofs.Outcome

/-!
# Steps of a registration

What a field or an alias that is registered leaves in the map of names and in the map of shared
fields. Looking names up depends on these two maps alone; the index of the names of a column has
no part in it.
-/

namespace CriteriaQuery

/-- The registration of a table. -/
structure Registration where
  table : String
  fields : NameMap
  aliases : NameMap

namespace AliasRegistry

variable {r r' : AliasRegistry}

@[simp] theorem owners_dropName (column : ColumnRef) (name : String) :
    (r.dropName column name).owners = r.owners := by
  unfold dropName
  split <;> rfl

@[simp] theorem shared_dropName (column : ColumnRef) (name : String) :
    (r.dropName column name).shared = r.shared := by
  unfold dropName
  split <;> rfl

@[simp] theorem owners_rebind (name : String) (column : ColumnRef) :
    (r.rebind name column).owners = r.owners.insert name column := by
  unfold rebind
  dsimp only
  split
  · split <;> simp
  · rfl

@[simp] theorem shared_rebind (name : String) (column : ColumnRef) :
    (r.rebind name column).shared = r.shared := by
  unfold rebind
  dsimp only
  split
  · split <;> simp
  · rfl

@[simp] theorem explicit_dropName (column : ColumnRef) (name : String) :
    (r.dropName column name).explicit = r.explicit := by
  unfold dropName
  split <;> rfl

@[simp] theorem explicit_rebind (name : String) (column : ColumnRef) :
    (r.rebind name column).explicit = r.explicit := by
  unfold rebind
  dsimp only
  split
  · split <;> simp
  · rfl

@[simp] theorem explicit_claimField (field : String) (column : ColumnRef) :
    (r.claimField field column).explicit = r.explicit := by
  unfold claimField
  split
  · rfl
  · split
    · split <;> simp
    · simp

@[simp] theorem owners_addName (column : ColumnRef) (name : String) :
    (r.addName column name).owners = r.owners := rfl

@[simp] theorem shared_addName (column : ColumnRef) (name : String) :
    (r.addName column name).shared = r.shared := rfl

@[simp] theorem explicit_addName (column : ColumnRef) (name : String) :
    (r.addName column name).explicit = r.explicit := rfl

/-- What becomes of the two maps when a table binds a bare name and the qualified one to a column. -/
structure Binds (r r' : AliasRegistry) (table name : String) (column : ColumnRef) : Prop where
  unshared : r.shared.get? name = none
  /-- Nobody else has the name. -/
  free : ∀ existing, r.owners.get? name = some existing → existing.table = table
  owners : r'.owners =
    (r.owners.insert name column).insert (ColumnRef.qualify table name) column
  shared : r'.shared = r.shared

/-- What becomes of the two maps when a field of a table is registered. -/
inductive FieldStep (r r' : AliasRegistry) (field : String) (column : ColumnRef) : Prop
  | binds (h : Binds r r' column.table field column)
  /-- Another table has the name, which both share from now on. -/
  | divides (existing : ColumnRef) (unshared : r.shared.get? field = none)
    (taken : r.owners.get? field = some existing) (other : existing.table ≠ column.table)
    (owners : r'.owners =
      (r.owners.erase field).insert (ColumnRef.qualify column.table field) column)
    (shared : r'.shared =
      r.shared.insert field (SortedSet.ofList [existing.table, column.table]))
  /-- Several tables share the name already. -/
  | joins (tables : SortedSet String) (already : r.shared.get? field = some tables)
    (owners : r'.owners = r.owners.insert (ColumnRef.qualify column.table field) column)
    (shared : r'.shared = r.shared.insert field (tables.add column.table))

/-- What is left when a field is registered: the bare name claimed, the qualified one bound to the
column, and the name in its index. -/
theorem eq_of_registerField {table field name : String}
    (h : r.registerField table field name = .ok r') :
    r' = ((r.claimField field ⟨table, name⟩).rebind
      (ColumnRef.qualify table field) ⟨table, name⟩).addName ⟨table, name⟩ field := by
  unfold registerField at h
  dsimp only at h
  split at h
  · split at h
    · exact (Except.ok.inj h).symm
    · simp at h
  · exact (Except.ok.inj h).symm

theorem fieldStep_of_registerField {table field name : String}
    (h : r.registerField table field name = .ok r') : FieldStep r r' field ⟨table, name⟩ := by
  rw [eq_of_registerField h]
  cases hshared : r.shared.get? field with
  | some tables =>
      apply FieldStep.joins tables hshared
      · simp [claimField, hshared]
      · simp [claimField, hshared]
  | none =>
      cases howner : r.owners.get? field with
      | none =>
          apply FieldStep.binds
          refine ⟨hshared, ?_, ?_, ?_⟩
          · simp [howner]
          · simp [claimField, hshared, howner]
          · simp [claimField, hshared, howner]
      | some existing =>
          by_cases htable : existing.table = table
          · apply FieldStep.binds
            refine ⟨hshared, ?_, ?_, ?_⟩
            · simp [howner, htable]
            · simp [claimField, hshared, howner, htable]
            · simp [claimField, hshared, howner, htable]
          · apply FieldStep.divides existing hshared howner htable
            · simp [claimField, hshared, howner, htable]
            · simp [claimField, hshared, howner, htable]

theorem free_of_aliasRival? {table given : String} (h : r.aliasRival? table given = none) :
    r.shared.get? given = none ∧
      ∀ existing, r.owners.get? given = some existing → existing.table = table := by
  have hrival : aliasRival?.sharedRival r table given = none := by
    unfold aliasRival? at h
    split at h
    · split at h
      · exact h
      · simp at h
    · exact h
  unfold aliasRival?.sharedRival at hrival
  split at hrival
  · simp at hrival
  · next hshared =>
      refine ⟨hshared, ?_⟩
      intro existing howner
      simpa [howner] using hrival

/-- What is left when an alias is registered: both names bound to the column of its target, the name
in its index, and explicit. -/
theorem eq_of_registerAlias {table given target : String}
    (h : r.registerAlias table given target = .ok r') :
    ∃ column, r.owners.get? (ColumnRef.qualify table target) = some column ∧
      r.aliasRival? table given = none ∧
      r' = AliasRegistry.addName
        { (r.rebind given column).rebind (ColumnRef.qualify table given) column with
          explicit := r.explicit.insert given table } column given := by
  unfold registerAlias at h
  split at h
  · simp at h
  · next column htarget =>
      split at h
      · simp at h
      · next hrival =>
          refine ⟨column, htarget, hrival, ?_⟩
          rw [← Except.ok.inj h]
          simp

/-- An alias that is registered binds its name to the column that its target has. -/
theorem binds_of_registerAlias {table given target : String}
    (h : r.registerAlias table given target = .ok r') :
    ∃ column, r.owners.get? (ColumnRef.qualify table target) = some column ∧
      Binds r r' table given column := by
  obtain ⟨column, htarget, hrival, rfl⟩ := eq_of_registerAlias h
  obtain ⟨hshared, hfree⟩ := free_of_aliasRival? hrival
  refine ⟨column, htarget, hshared, hfree, ?_, ?_⟩
  · simp
  · simp

/-! ### Runs -/

/-- The registry after registrations which all succeed, in order. -/
inductive Registered : List Registration → AliasRegistry → Prop
  | start : Registered [] ∅
  | next {gs : List Registration} {g : Registration} {r r' : AliasRegistry}
    (h : Registered gs r) (hr : r.register g.table g.fields g.aliases = .ok r') :
    Registered (gs ++ [g]) r'

end AliasRegistry

end CriteriaQuery
