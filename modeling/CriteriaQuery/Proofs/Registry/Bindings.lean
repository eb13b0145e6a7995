import CriteriaQuery.Proofs.Registry.Step

/-!
# Bindings

What names mean is said without the maps of a registry: every registration binds the names of a
table, an alias to what its target is bound to at that moment, and a later binding replaces an
earlier one. A point tells the qualified names of tables apart as long as names hold none.
-/

namespace CriteriaQuery

/-- A name without a point. -/
def Undotted (name : String) : Prop := '.' ∉ name.toList

instance (name : String) : Decidable (Undotted name) :=
  inferInstanceAs (Decidable ('.' ∉ name.toList))

/-- The fields, the aliases and the names that the aliases stand for hold no point; the table may. -/
structure Registration.Undotted (g : Registration) : Prop where
  fields : ∀ e ∈ g.fields.entries, CriteriaQuery.Undotted e.1
  aliases : ∀ e ∈ g.aliases.entries, CriteriaQuery.Undotted e.1 ∧ CriteriaQuery.Undotted e.2

/-- The column that a table binds a name to. -/
abbrev Bindings := String → String → Option ColumnRef

namespace Bindings

/-- The latest binding of a name counts. -/
def bind (m : Bindings) (table name : String) (column : ColumnRef) : Bindings :=
  fun t n => if t = table ∧ n = name then some column else m t n

/-- Fields are bound to columns of the table. -/
def bindFields (table : String) : List (String × String) → Bindings → Bindings
  | [], m => m
  | (field, name) :: rest, m => bindFields table rest (m.bind table field ⟨table, name⟩)

/-- Aliases are bound to what their targets are bound to at that moment. -/
def bindAliases (table : String) : List (String × String) → Bindings → Bindings
  | [], m => m
  | (given, target) :: rest, m =>
    match m table target with
    | some column => bindAliases table rest (m.bind table given column)
    | none => bindAliases table rest m

/-- The bindings after a registration: first its fields, then its aliases. -/
def after (m : Bindings) (g : Registration) : Bindings :=
  bindAliases g.table g.aliases.entries (bindFields g.table g.fields.entries m)

/-- The bindings after registrations in order. -/
def ofAll (gs : List Registration) : Bindings := gs.foldl after fun _ _ => none

/-- Whether a table binds a name. -/
def Declares (m : Bindings) (table name : String) : Prop := ∃ column, m table name = some column

/-- The two smallest tables that bind a name. -/
structure Smallest (m : Bindings) (name first second : String) : Prop where
  declares_first : m.Declares first name
  declares_second : m.Declares second name
  ascending : first < second
  others : ∀ table, m.Declares table name → table = first ∨ table = second ∨ second < table

theorem declares_bind {m : Bindings} {table name t n : String} {column : ColumnRef} :
    (m.bind table name column).Declares t n ↔ (t = table ∧ n = name) ∨ m.Declares t n := by
  unfold Declares bind
  by_cases h : t = table ∧ n = name <;> simp [h]

namespace Smallest

variable {m : Bindings} {name first second first' second' : String}

theorem first_le (h : m.Smallest name first second) {table : String}
    (htable : m.Declares table name) : table = first ∨ first < table := by
  rcases h.others table htable with rfl | rfl | hlt
  · exact Or.inl rfl
  · exact Or.inr h.ascending
  · exact Or.inr (String.lt_trans h.ascending hlt)

/-- No two pairs of tables are the smallest ones. -/
theorem unique (h : m.Smallest name first second) (h' : m.Smallest name first' second') :
    first = first' ∧ second = second' := by
  have hfirst : first = first' := by
    rcases h.first_le h'.declares_first with heq | hlt
    · exact heq.symm
    · rcases h'.first_le h.declares_first with heq | hgt
      · exact heq
      · exact absurd (String.lt_trans hlt hgt) (String.lt_irrefl _)
  subst hfirst
  refine ⟨rfl, ?_⟩
  rcases h.others second' h'.declares_second with heq | heq | hlt
  · exact absurd (heq ▸ h'.ascending) (String.lt_irrefl _)
  · exact heq.symm
  · rcases h'.others second h.declares_second with heq | heq | hgt
    · exact absurd (heq ▸ h.ascending) (String.lt_irrefl _)
    · exact heq
    · exact absurd (String.lt_trans hlt hgt) (String.lt_irrefl _)

end Smallest

end Bindings

namespace ColumnRef

/-- The point of a qualified name is the last one. -/
theorem qualify_inj {table table' name name' : String} (hname : Undotted name)
    (hname' : Undotted name') :
    qualify table name = qualify table' name' ↔ table = table' ∧ name = name' := by
  constructor
  · intro h
    have hlist : table.toList ++ '.' :: name.toList = table'.toList ++ '.' :: name'.toList := by
      simpa [qualify] using congrArg String.toList h
    -- of two different splits, the longer name would hold the point of the other one
    rcases List.append_eq_append_iff.mp hlist with ⟨more, htable, hrest⟩ | ⟨more, htable, hrest⟩
    · cases more with
      | nil => simpa [String.toList_inj, eq_comm] using And.intro htable hrest
      | cons c more =>
          obtain ⟨-, hsuffix⟩ := List.cons.inj hrest
          have hpoint : '.' ∈ name.toList := by simp [hsuffix]
          exact absurd hpoint hname
    · cases more with
      | nil => simpa [String.toList_inj, eq_comm] using And.intro htable hrest
      | cons c more =>
          obtain ⟨-, hsuffix⟩ := List.cons.inj hrest
          have hpoint : '.' ∈ name'.toList := by simp [hsuffix]
          exact absurd hpoint hname'
  · rintro ⟨rfl, rfl⟩
    rfl

theorem ne_qualify {name : String} (h : Undotted name) (table other : String) :
    name ≠ qualify table other := by
  rintro rfl
  simp [Undotted, qualify] at h

end ColumnRef

end CriteriaQuery
