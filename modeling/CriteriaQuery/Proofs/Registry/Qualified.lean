import CriteriaQuery.Proofs.Registry.Step

/-!
# Qualified names

A qualified name means a column of its own table, whatever is registered besides, as long as no
other table has a name that reads like it. Nothing is asked of the names themselves: they may hold
points, and so may tables. Where a name of another table does read like a qualified name, that one
may be lost.

## Implementation notes

Bare and qualified names are keys of one map. A step that registers a name of a table changes what
is held at two keys, the bare name and the qualified one; all other keys keep what they have.
-/

namespace CriteriaQuery

namespace Registration

/-- The names that a registration gives to columns. -/
def names (g : Registration) : List String := g.fields.keys ++ g.aliases.keys

/-- The names that a registration speaks of: those that it gives, and those that its aliases stand
for. -/
def mentions (g : Registration) : List String := g.names ++ g.aliases.entries.map Prod.snd

/-- No name that the second registration gives reads like a qualified name of the first. -/
def Apart (g g' : Registration) : Prop :=
  ∀ n ∈ g.mentions, ∀ n' ∈ g'.names,
    n' ≠ ColumnRef.qualify g.table n ∧ ColumnRef.qualify g'.table n' ≠ ColumnRef.qualify g.table n

end Registration

theorem ColumnRef.ne_qualify_self (table name : String) : name ≠ qualify table name := by
  intro h
  have hlength := congrArg String.length h
  simp [qualify] at hlength

namespace AliasRegistry

variable {r r' : AliasRegistry}

/-- What a step that registers a name of a table does to the keys of the two maps. -/
structure NameStep (r r' : AliasRegistry) (table name : String) (column : ColumnRef) : Prop where
  qualified : r'.owners.get? (ColumnRef.qualify table name) = some column
  /-- A bare name that no other table has is bound too. -/
  bare : r.shared.get? name = none →
    (∀ existing, r.owners.get? name = some existing → existing.table = table) →
    r'.shared.get? name = none ∧ r'.owners.get? name = some column
  owners : ∀ k, k ≠ name → k ≠ ColumnRef.qualify table name →
    r'.owners.get? k = r.owners.get? k
  shared : ∀ k, k ≠ name → r'.shared.get? k = r.shared.get? k
  /-- No other column is bound to anything new. -/
  owned : ∀ k c, r'.owners.get? k = some c → c = column ∨ r.owners.get? k = some c

theorem Binds.nameStep {table name : String} {column : ColumnRef}
    (h : Binds r r' table name column) : NameStep r r' table name column where
  qualified := by
    rw [h.owners]
    simp
  bare := by
    intro _ _
    rw [h.owners, h.shared]
    simp [ColumnRef.ne_qualify_self, h.unshared]
  owners := by
    intro k hname hqualified
    rw [h.owners]
    simp [hname, hqualified]
  shared := by
    intro k _
    rw [h.shared]
  owned := by
    intro k c hk
    rw [h.owners, SortedMap.get?_insert, SortedMap.get?_insert] at hk
    split at hk
    · exact Or.inl (Option.some.inj hk).symm
    · split at hk
      · exact Or.inl (Option.some.inj hk).symm
      · exact Or.inr hk

theorem FieldStep.nameStep {field : String} {column : ColumnRef} (h : FieldStep r r' field column) :
    NameStep r r' column.table field column := by
  cases h with
  | binds h => exact h.nameStep
  | divides existing unshared taken other owners shared =>
      constructor
      · rw [owners]
        simp
      · intro _ hfree
        exact absurd (hfree existing taken) other
      · intro k hname hqualified
        rw [owners]
        simp [hname, hqualified]
      · intro k hname
        rw [shared]
        simp [hname]
      · intro k c hk
        rw [owners, SortedMap.get?_insert, SortedMap.get?_erase] at hk
        split at hk
        · exact Or.inl (Option.some.inj hk).symm
        · split at hk
          · simp at hk
          · exact Or.inr hk
  | joins tables already owners shared =>
      constructor
      · rw [owners]
        simp
      · intro hunshared _
        simp [already] at hunshared
      · intro k _ hqualified
        rw [owners]
        simp [hqualified]
      · intro k hname
        rw [shared]
        simp [hname]
      · intro k c hk
        rw [owners, SortedMap.get?_insert] at hk
        split at hk
        · exact Or.inl (Option.some.inj hk).symm
        · exact Or.inr hk

/-! ### Names that stay with their table -/

/-- A qualified name is not shared and means no column of another table. -/
structure Own (r : AliasRegistry) (table name : String) : Prop where
  unshared : r.shared.get? (ColumnRef.qualify table name) = none
  own : ∀ column, r.owners.get? (ColumnRef.qualify table name) = some column →
    column.table = table

/-- A qualified name means some column. -/
def Bound (r : AliasRegistry) (table name : String) : Prop :=
  ∃ column, r.owners.get? (ColumnRef.qualify table name) = some column

section Step

variable {table name t n : String} {column : ColumnRef}

theorem own_of_eq (hshared : r'.shared.get? (ColumnRef.qualify t n) = none)
    (howner : r'.owners.get? (ColumnRef.qualify t n) = some column) (hcolumn : column.table = t) :
    r'.Own t n ∧ r'.Bound t n := by
  refine ⟨⟨hshared, ?_⟩, column, howner⟩
  intro c hc
  obtain rfl := Option.some.inj (howner.symm.trans hc)
  exact hcolumn

/-- What a step makes of a qualified name that no other table has a name like. -/
theorem Own.of_nameStep (h : r.Own t n) (hstep : NameStep r r' table name column)
    (hcolumn : column.table = table)
    (hapart : table ≠ t →
      name ≠ ColumnRef.qualify t n ∧ ColumnRef.qualify table name ≠ ColumnRef.qualify t n) :
    r'.Own t n ∧ (r.Bound t n → r'.Bound t n) := by
  by_cases hname : ColumnRef.qualify t n = name
  · -- the bare name reads like the qualified one, so both are of the same table
    have htable : table = t := Decidable.byContradiction fun hne => (hapart hne).1 hname.symm
    subst htable
    obtain ⟨hshared, howner⟩ := hstep.bare (hname ▸ h.unshared) (hname ▸ h.own)
    obtain ⟨hown, hbound⟩ := own_of_eq (hname ▸ hshared) (hname ▸ howner) hcolumn
    exact ⟨hown, fun _ => hbound⟩
  · have hshared : r'.shared.get? (ColumnRef.qualify t n) = none := by
      rw [hstep.shared _ hname, h.unshared]
    by_cases hqualified : ColumnRef.qualify t n = ColumnRef.qualify table name
    · have htable : table = t :=
        Decidable.byContradiction fun hne => (hapart hne).2 hqualified.symm
      obtain ⟨hown, hbound⟩ := own_of_eq hshared (hqualified ▸ hstep.qualified)
        (hcolumn.trans htable)
      exact ⟨hown, fun _ => hbound⟩
    · have howners := hstep.owners _ hname hqualified
      refine ⟨⟨hshared, ?_⟩, ?_⟩
      · rw [howners]
        exact h.own
      · rintro ⟨c, hc⟩
        exact ⟨c, howners.trans hc⟩

end Step

/-- All qualified names that registrations speak of stay with their tables. -/
def Guarded (r : AliasRegistry) (gs : List Registration) : Prop :=
  ∀ g ∈ gs, ∀ n ∈ g.mentions, r.Own g.table n

/-- Later registries keep the qualified names with their tables, and keep them bound. -/
structure Extends (gs : List Registration) (r r' : AliasRegistry) : Prop where
  guarded : r'.Guarded gs
  bound : ∀ g ∈ gs, ∀ n ∈ g.mentions, r.Bound g.table n → r'.Bound g.table n

theorem guarded_empty (gs : List Registration) : (∅ : AliasRegistry).Guarded gs := by
  intro g _ n _
  refine ⟨rfl, ?_⟩
  intro column hcolumn
  have hnone : (∅ : AliasRegistry).owners.get? (ColumnRef.qualify g.table n) = none := rfl
  simp [hnone] at hcolumn

section Run

variable {gs : List Registration} {g : Registration}

theorem Guarded.of_nameStep (h : r.Guarded gs)
    (hapart : ∀ a ∈ gs, ∀ b ∈ gs, a.table ≠ b.table → a.Apart b) (hg : g ∈ gs) {name : String}
    (hname : name ∈ g.names) {column : ColumnRef} (hcolumn : column.table = g.table)
    (hstep : NameStep r r' g.table name column) : Extends gs r r' := by
  have hown : ∀ a ∈ gs, ∀ n ∈ a.mentions,
      r'.Own a.table n ∧ (r.Bound a.table n → r'.Bound a.table n) := by
    intro a ha n hn
    apply (h a ha n hn).of_nameStep hstep hcolumn
    intro hne
    exact hapart a ha g hg hne.symm n hn name hname
  exact ⟨fun a ha n hn => (hown a ha n hn).1, fun a ha n hn => (hown a ha n hn).2⟩

theorem Extends.trans {r'' : AliasRegistry} (h : Extends gs r r') (h' : Extends gs r' r'') :
    Extends gs r r'' where
  guarded := h'.guarded
  bound := fun a ha n hn hbound => h'.bound a ha n hn (h.bound a ha n hn hbound)

theorem Guarded.of_registerFields {entries : List (String × String)} (h : r.Guarded gs)
    (hapart : ∀ a ∈ gs, ∀ b ∈ gs, a.table ≠ b.table → a.Apart b) (hg : g ∈ gs)
    (hentries : ∀ e ∈ entries, e.1 ∈ g.names) (hr : registerFields g.table entries r = .ok r') :
    Extends gs r r' ∧ ∀ e ∈ entries, r'.Bound g.table e.1 := by
  induction entries generalizing r with
  | nil =>
      obtain rfl : r = r' := by simpa [registerFields] using hr
      exact ⟨⟨h, fun _ _ _ _ => id⟩, by simp⟩
  | cons e entries ih =>
      obtain ⟨field, name⟩ := e
      obtain ⟨r₁, hfirst, hrest⟩ := bind_eq_ok_iff.mp hr
      have hfield : field ∈ g.names := hentries (field, name) List.mem_cons_self
      have hstep := (fieldStep_of_registerField hfirst).nameStep
      have hextends := h.of_nameStep hapart hg hfield rfl hstep
      obtain ⟨hmore, hbound⟩ :=
        ih hextends.guarded (fun e he => hentries e (List.mem_cons_of_mem _ he)) hrest
      refine ⟨hextends.trans hmore, ?_⟩
      intro e he
      rcases List.mem_cons.mp he with rfl | he
      · exact hmore.bound g hg field (List.mem_append_left _ hfield) ⟨_, hstep.qualified⟩
      · exact hbound e he

theorem Guarded.of_registerAliases {entries : List (String × String)} (h : r.Guarded gs)
    (hapart : ∀ a ∈ gs, ∀ b ∈ gs, a.table ≠ b.table → a.Apart b) (hg : g ∈ gs)
    (hentries : ∀ e ∈ entries, e.1 ∈ g.names ∧ e.2 ∈ g.mentions)
    (hr : registerAliases g.table entries r = .ok r') :
    Extends gs r r' ∧ ∀ e ∈ entries, r'.Bound g.table e.1 := by
  induction entries generalizing r with
  | nil =>
      obtain rfl : r = r' := by simpa [registerAliases] using hr
      exact ⟨⟨h, fun _ _ _ _ => id⟩, by simp⟩
  | cons e entries ih =>
      obtain ⟨given, target⟩ := e
      obtain ⟨r₁, hfirst, hrest⟩ := bind_eq_ok_iff.mp hr
      obtain ⟨hgiven, htarget⟩ := hentries (given, target) List.mem_cons_self
      obtain ⟨column, howner, hbinds⟩ := binds_of_registerAlias hfirst
      have hcolumn := (h g hg target htarget).own column howner
      have hextends := h.of_nameStep hapart hg hgiven hcolumn hbinds.nameStep
      obtain ⟨hmore, hbound⟩ :=
        ih hextends.guarded (fun e he => hentries e (List.mem_cons_of_mem _ he)) hrest
      refine ⟨hextends.trans hmore, ?_⟩
      intro e he
      rcases List.mem_cons.mp he with rfl | he
      · exact hmore.bound g hg given (List.mem_append_left _ hgiven) ⟨_, hbinds.nameStep.qualified⟩
      · exact hbound e he

theorem Guarded.of_register (h : r.Guarded gs)
    (hapart : ∀ a ∈ gs, ∀ b ∈ gs, a.table ≠ b.table → a.Apart b) (hg : g ∈ gs)
    (hr : r.register g.table g.fields g.aliases = .ok r') :
    Extends gs r r' ∧ ∀ n ∈ g.names, r'.Bound g.table n := by
  obtain ⟨r₁, hfields, haliases⟩ := bind_eq_ok_iff.mp hr
  obtain ⟨hfirst, hboundFields⟩ := h.of_registerFields hapart hg
    (fun e he => List.mem_append_left _ (List.mem_map_of_mem he)) hfields
  obtain ⟨hsecond, hboundAliases⟩ := hfirst.guarded.of_registerAliases hapart hg
    (fun e he => ⟨List.mem_append_right _ (List.mem_map_of_mem he),
      List.mem_append_right _ (List.mem_map_of_mem he)⟩) haliases
  refine ⟨hfirst.trans hsecond, ?_⟩
  intro n hn
  rcases List.mem_append.mp hn with hfield | halias
  · obtain ⟨e, he, rfl⟩ := List.mem_map.mp hfield
    exact hsecond.bound g hg e.1 (List.mem_append_left _ hn) (hboundFields e he)
  · obtain ⟨e, he, rfl⟩ := List.mem_map.mp halias
    exact hboundAliases e he

/-- Along a run, the qualified names of all registrations stay with their tables, and those that
were registered are bound. -/
theorem guarded_of_registered {done : List Registration} (h : Registered done r)
    (hapart : ∀ a ∈ gs, ∀ b ∈ gs, a.table ≠ b.table → a.Apart b) (hdone : ∀ g ∈ done, g ∈ gs) :
    r.Guarded gs ∧ ∀ g ∈ done, ∀ n ∈ g.names, r.Bound g.table n := by
  induction h with
  | start => exact ⟨guarded_empty gs, by simp⟩
  | @next done g r r' _ hr ih =>
      obtain ⟨hguarded, hbound⟩ := ih fun g' hg' => hdone g' (List.mem_append_left _ hg')
      have hg : g ∈ gs := hdone g (List.mem_append_right _ (List.mem_singleton_self g))
      obtain ⟨hextends, hnew⟩ := hguarded.of_register hapart hg hr
      refine ⟨hextends.guarded, ?_⟩
      intro g' hg' n hn
      rcases List.mem_append.mp hg' with hbefore | hlast
      · exact hextends.bound g' (hdone g' hg') n (List.mem_append_left _ hn)
          (hbound g' hbefore n hn)
      · obtain rfl := List.mem_singleton.mp hlast
        exact hnew n hn

end Run

/-- As long as no name of a table reads like a qualified name of another one, the qualified name of
every field and alias that was registered means a column of its own table. -/
theorem exists_resolve_qualified (gs : List Registration) (r : AliasRegistry)
    (h : Registered gs r) (hapart : ∀ a ∈ gs, ∀ b ∈ gs, a.table ≠ b.table → a.Apart b)
    (g : Registration) (hg : g ∈ gs) (name : String) (hname : name ∈ g.names) :
    ∃ column, r.resolve (ColumnRef.qualify g.table name) = .ok column ∧
      column.table = g.table := by
  obtain ⟨hguarded, hbound⟩ := guarded_of_registered h hapart fun _ => id
  obtain ⟨column, howner⟩ := hbound g hg name hname
  have hown := (hguarded g hg name (List.mem_append_left _ hname)).own column howner
  exact ⟨column, resolve_eq_ok_iff.mpr howner, hown⟩

/-- A table whose name holds a point and which shares a field with another one, beside a field that
holds a point. -/
def pointedRegistrations : List Registration := [
  ⟨"a.b", SortedMap.ofList [("id", "pk")], SortedMap.ofList [("key", "id")]⟩,
  ⟨"a", SortedMap.ofList [("id", "id_a"), ("c.d", "x")], ∅⟩]

theorem exists_resolve_qualified_pointed :
    ∃ r, Registered pointedRegistrations r ∧
      (∀ a ∈ pointedRegistrations, ∀ b ∈ pointedRegistrations, a.table ≠ b.table → a.Apart b) ∧
      ∃ g ∈ pointedRegistrations, "key" ∈ g.names ∧
        ∃ column, r.resolve (ColumnRef.qualify g.table "key") = .ok column ∧
          column.table = g.table := by
  have hapart : ∀ a ∈ pointedRegistrations, ∀ b ∈ pointedRegistrations,
      a.table ≠ b.table → a.Apart b := by
    unfold Registration.Apart
    decide
  obtain ⟨r, h⟩ : ∃ r, Registered pointedRegistrations r :=
    ⟨_, (Registered.start.next rfl).next rfl⟩
  have hkey : "key" ∈ (pointedRegistrations[0]).names := by decide
  exact ⟨r, h, hapart, _, List.mem_cons_self, hkey,
    exists_resolve_qualified pointedRegistrations r h hapart _ List.mem_cons_self "key" hkey⟩

/-- The second table has a field that reads like the qualified name of the field of the first. -/
def clashingRegistrations : List Registration := [
  ⟨"a", SortedMap.ofList [("b", "x")], ∅⟩,
  ⟨"t", SortedMap.ofList [("a.b", "y")], ∅⟩]

/-- The fields of the two tables have one qualified name. -/
def mergingRegistrations : List Registration := [
  ⟨"a", SortedMap.ofList [("b.c", "x")], ∅⟩,
  ⟨"a.b", SortedMap.ofList [("c", "y")], ∅⟩]

/-- Otherwise the qualified name of a field may mean no column any more, or one of another table. -/
theorem resolve_qualified_clashing :
    (∃ r, Registered clashingRegistrations r ∧
      (∃ g ∈ clashingRegistrations, g.table = "a" ∧ "b" ∈ g.fields.keys) ∧
      r.resolve (ColumnRef.qualify "a" "b") = .error (.ambiguousAlias "a.b" "a" "t")) ∧
    ∃ r, Registered mergingRegistrations r ∧
      (∃ g ∈ mergingRegistrations, g.table = "a" ∧ "b.c" ∈ g.fields.keys) ∧
      r.resolve (ColumnRef.qualify "a" "b.c") = .ok ⟨"a.b", "y"⟩ := by
  constructor
  · refine ⟨_, (Registered.start.next rfl).next rfl, ?_, rfl⟩
    exact ⟨_, List.mem_cons_self, rfl, by decide⟩
  · refine ⟨_, (Registered.start.next rfl).next rfl, ?_, rfl⟩
    exact ⟨_, List.mem_cons_self, rfl, by decide⟩

end AliasRegistry

end CriteriaQuery
