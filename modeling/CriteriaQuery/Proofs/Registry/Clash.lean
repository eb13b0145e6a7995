import CriteriaQuery.Proofs.Registry.Columns

/-!
# Names that clash

A table whose aliases stand for fields of it is refused for one reason only, which is that a name
is claimed by two tables. An alias never misses what it stands for, whatever the names are and
whatever is registered already.

## Implementation notes

The key of a qualified name may be lost to another table. While its own table is registered it is
not: the column that it means is one of this table, and a name is taken from such a column only to
give it to another column of the table.
-/

namespace CriteriaQuery

/-! ### Outcomes -/

/-- A result as it should be, or the report of a name that two tables claim. -/
inductive OrAmbiguous {α : Type} (P : α → Prop) : Except CatalogError α → Prop
  | ok {a : α} (h : P a) : OrAmbiguous P (.ok a)
  | ambiguous (name first second : String) :
    OrAmbiguous P (.error (.ambiguousAlias name first second))

namespace OrAmbiguous

variable {α β : Type} {P P' : α → Prop} {Q : β → Prop} {x : Except CatalogError α}

theorem mono (h : OrAmbiguous P x) (himp : ∀ a, P a → P' a) : OrAmbiguous P' x := by
  cases h with
  | ok h => exact .ok (himp _ h)
  | ambiguous name first second => exact .ambiguous name first second

/-- Of two steps one after the other, each may be the one that reports a name. -/
theorem bind {f : α → Except CatalogError β} (hx : OrAmbiguous P x)
    (hf : ∀ a, P a → OrAmbiguous Q (f a)) : OrAmbiguous Q (x >>= f) := by
  cases hx with
  | ok h => exact hf _ h
  | ambiguous name first second => exact .ambiguous name first second

theorem exists_ok (h : OrAmbiguous P x) :
    (∃ a, x = .ok a) ∨ ∃ name first second, x = .error (.ambiguousAlias name first second) := by
  cases h with
  | ok => exact Or.inl ⟨_, rfl⟩
  | ambiguous name first second => exact Or.inr ⟨name, first, second, rfl⟩

end OrAmbiguous

namespace AliasRegistry

variable {r r' : AliasRegistry} {table name t n : String} {column : ColumnRef}

/-! ### Names that a table keeps -/

/-- A qualified name means a column of its table. -/
def Keeps (r : AliasRegistry) (t n : String) : Prop :=
  ∃ column, r.owners.get? (ColumnRef.qualify t n) = some column ∧ column.table = t

/-- What meant a column of the table does so after a key has got another one of these. -/
theorem Keeps.of_insert (h : r.Keeps t n) {key : String} (hcolumn : column.table = t)
    (howners : r'.owners = r.owners.insert key column) : r'.Keeps t n := by
  by_cases hkey : ColumnRef.qualify t n = key
  · exact ⟨column, by simp [howners, hkey], hcolumn⟩
  · obtain ⟨c, hc, htable⟩ := h
    exact ⟨c, by simp [howners, hkey, hc], htable⟩

theorem Keeps.of_binds (h : r.Keeps t n) (hcolumn : column.table = t)
    (hstep : Binds r r' t name column) : r'.Keeps t n := by
  have hbare : ({ r with owners := r.owners.insert name column } : AliasRegistry).Keeps t n :=
    h.of_insert hcolumn rfl
  exact hbare.of_insert hcolumn hstep.owners

theorem Keeps.of_fieldStep (h : r.Keeps t n) (hcolumn : column.table = t)
    (hstep : FieldStep r r' name column) : r'.Keeps t n := by
  cases hstep with
  | binds hstep => exact h.of_binds hcolumn (hcolumn ▸ hstep)
  | divides existing _ taken other owners _ =>
      -- the name that is taken away means a column of another table
      have herased : ({ r with owners := r.owners.erase name } : AliasRegistry).Keeps t n := by
        obtain ⟨c, hc, htable⟩ := h
        have hne : ColumnRef.qualify t n ≠ name := by
          rintro rfl
          obtain rfl := Option.some.inj (hc.symm.trans taken)
          exact other (htable.trans hcolumn.symm)
        exact ⟨c, by simp [hne, hc], htable⟩
      exact herased.of_insert hcolumn owners
  | joins _ _ owners _ => exact h.of_insert hcolumn owners

theorem keeps_of_nameStep (hcolumn : column.table = t) (hstep : NameStep r r' t n column) :
    r'.Keeps t n :=
  ⟨column, hstep.qualified, hcolumn⟩

/-! ### Registering -/

theorem orAmbiguous_registerField (r : AliasRegistry) (table field name : String) :
    OrAmbiguous (fun r' => FieldStep r r' field ⟨table, name⟩)
      (r.registerField table field name) := by
  cases h : r.registerField table field name with
  | ok r' => exact .ok (fieldStep_of_registerField h)
  | error e =>
      unfold registerField at h
      dsimp only at h
      split at h
      · split at h
        · simp at h
        · obtain rfl := Except.error.inj h
          exact .ambiguous ..
      · simp at h

/-- An alias of a name that its table keeps is refused only if another table has its own name. -/
theorem orAmbiguous_registerAlias {given target : String} (h : r.Keeps table target) :
    OrAmbiguous (fun r' => ∃ column : ColumnRef, column.table = table ∧
      Binds r r' table given column) (r.registerAlias table given target) := by
  obtain ⟨column, howner, htable⟩ := h
  cases hr : r.registerAlias table given target with
  | ok r' =>
      obtain ⟨column', howner', hbinds⟩ := binds_of_registerAlias hr
      obtain rfl := Option.some.inj (howner.symm.trans howner')
      exact .ok ⟨column, htable, hbinds⟩
  | error e =>
      simp only [registerAlias, howner] at hr
      split at hr
      · obtain rfl := Except.error.inj hr
        exact .ambiguous ..
      · simp at hr

theorem orAmbiguous_registerFields (r : AliasRegistry) (table : String)
    (entries : List (String × String)) :
    OrAmbiguous (fun r' => (∀ n, r.Keeps table n → r'.Keeps table n) ∧
      ∀ e ∈ entries, r'.Keeps table e.1) (registerFields table entries r) := by
  induction entries generalizing r with
  | nil => exact .ok ⟨fun _ => id, by simp⟩
  | cons e entries ih =>
      obtain ⟨field, name⟩ := e
      refine (orAmbiguous_registerField r table field name).bind fun r₁ hstep => ?_
      have hfirst : r₁.Keeps table field := keeps_of_nameStep rfl hstep.nameStep
      have hkept : ∀ n, r.Keeps table n → r₁.Keeps table n := fun n h => h.of_fieldStep rfl hstep
      refine (ih r₁).mono fun r₂ hr₂ => ?_
      obtain ⟨hrest, hentries⟩ := hr₂
      refine ⟨fun n h => hrest n (hkept n h), ?_⟩
      intro e he
      rcases List.mem_cons.mp he with rfl | he
      · exact hrest field hfirst
      · exact hentries e he

theorem orAmbiguous_registerAliases {entries : List (String × String)}
    (h : ∀ e ∈ entries, r.Keeps table e.2) :
    OrAmbiguous (fun _ => True) (registerAliases table entries r) := by
  induction entries generalizing r with
  | nil => exact .ok trivial
  | cons e entries ih =>
      obtain ⟨given, target⟩ := e
      have htarget : r.Keeps table target := h (given, target) List.mem_cons_self
      refine (orAmbiguous_registerAlias htarget).bind fun r₁ hr₁ => ?_
      obtain ⟨column, hcolumn, hbinds⟩ := hr₁
      exact ih fun e he => (h e (List.mem_cons_of_mem _ he)).of_binds hcolumn hbinds

/-- A table whose aliases stand for its fields is registered, or a name of it clashes with one of
another table. -/
theorem orAmbiguous_register (r : AliasRegistry) {g : Registration} (hsound : g.Sound) :
    OrAmbiguous (fun _ => True) (r.register g.table g.fields g.aliases) := by
  refine (orAmbiguous_registerFields r g.table g.fields.entries).bind fun r₁ hfields => ?_
  apply orAmbiguous_registerAliases
  intro e he
  obtain ⟨column, htarget⟩ := hsound e he
  exact hfields.2 (e.2, column) (SortedMap.mem_entries_iff.mpr htarget)

end AliasRegistry

end CriteriaQuery
