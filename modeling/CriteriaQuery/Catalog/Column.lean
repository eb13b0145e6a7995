import CriteriaQuery.Sorted.Map

/-!
# Columns

A physical column: the table that owns it and its name there. Columns are ordered by table,
then by name.
-/

namespace CriteriaQuery

/-- A column of a table. -/
structure ColumnRef where
  table : String
  column : String
deriving DecidableEq, Inhabited

namespace ColumnRef

/-- A name with its table before it. -/
def qualify (table name : String) : String := table ++ "." ++ name

/-- The qualified name of a column. -/
def display (c : ColumnRef) : String := qualify c.table c.column

instance : LT ColumnRef := ⟨fun a b => a.table < b.table ∨ a.table = b.table ∧ a.column < b.column⟩

theorem lt_iff {a b : ColumnRef} :
    a < b ↔ a.table < b.table ∨ a.table = b.table ∧ a.column < b.column := Iff.rfl

instance : KeyOrder ColumnRef where
  decidableLT := fun _ _ => decidable_of_iff _ lt_iff.symm
  decidableEq := fun _ _ => inferInstance
  irrefl := fun a h => by
    rcases lt_iff.mp h with h | ⟨_, h⟩
    · exact String.lt_irrefl _ h
    · exact String.lt_irrefl _ h
  trans := fun {a b c} hab hbc => by
    rcases lt_iff.mp hab with hab | ⟨hab, hab'⟩ <;> rcases lt_iff.mp hbc with hbc | ⟨hbc, hbc'⟩
    · exact lt_iff.mpr (Or.inl (String.lt_trans hab hbc))
    · exact lt_iff.mpr (Or.inl (hbc ▸ hab))
    · exact lt_iff.mpr (Or.inl (hab ▸ hbc))
    · exact lt_iff.mpr (Or.inr ⟨hab.trans hbc, String.lt_trans hab' hbc'⟩)
  connected := fun {a b} h hne => by
    have htable : ¬ a.table < b.table := fun hlt => h (lt_iff.mpr (Or.inl hlt))
    rcases Classical.em (a.table = b.table) with heq | hdiff
    · have hcolumn : ¬ a.column < b.column := fun hlt => h (lt_iff.mpr (Or.inr ⟨heq, hlt⟩))
      have hname : a.column ≠ b.column := fun hc => hne (by
        cases a; cases b; simp_all)
      exact lt_iff.mpr (Or.inr ⟨heq.symm, KeyOrder.connected hcolumn hname⟩)
    · exact lt_iff.mpr (Or.inl (KeyOrder.connected htable hdiff))

end ColumnRef

end CriteriaQuery
