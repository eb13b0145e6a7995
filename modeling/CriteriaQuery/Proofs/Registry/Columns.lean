import CriteriaQuery.Proofs.Registry.Bindings
import CriteriaQuery.Proofs.Registry.Qualified

/-!
# Columns of qualified names

Of a table that is registered once, a field means its own column and an alias the column of the
field that it stands for, as long as no name reads like a qualified one and no alias takes over the
name of a field with another column. An alias that does take it over changes what the field means.

## Implementation notes

Fields and aliases are registered in ascending order of their names, so none comes twice. A step
that registers another name leaves the qualified name alone, within a table and across tables.
-/

namespace CriteriaQuery

theorem ColumnRef.qualify_right_inj {table name name' : String} :
    qualify table name = qualify table name' ↔ name = name' := by
  constructor
  · intro h
    have hlist : table.toList ++ '.' :: name.toList = table.toList ++ '.' :: name'.toList := by
      simpa [qualify] using congrArg String.toList h
    obtain ⟨-, hname⟩ := List.cons.inj (List.append_cancel_left hlist)
    exact String.toList_inj.mp hname
  · rintro rfl
    rfl

namespace Registration

/-- Aliases stand for fields. -/
def Sound (g : Registration) : Prop :=
  ∀ e ∈ g.aliases.entries, ∃ column, g.fields.get? e.2 = some column

/-- An alias that has the name of a field stands for a field with the same column. -/
def Consistent (g : Registration) : Prop :=
  ∀ e ∈ g.aliases.entries, ∀ column, g.fields.get? e.1 = some column →
    g.fields.get? e.2 = some column

/-- No name reads like the qualified form of one. -/
def Plain (g : Registration) : Prop :=
  ∀ n ∈ g.names, ∀ n' ∈ g.names, n' ≠ ColumnRef.qualify g.table n

/-- No name reads like a qualified one, whether of its own table or of another. -/
structure Separate (gs : List Registration) : Prop where
  across : ∀ a ∈ gs, ∀ b ∈ gs, a.table ≠ b.table → a.Apart b
  within : ∀ g ∈ gs, g.Plain

variable {g g' : Registration}

theorem mem_names_of_field {e : String × String} (h : e ∈ g.fields.entries) : e.1 ∈ g.names :=
  List.mem_append_left _ (List.mem_map_of_mem h)

theorem mem_names_of_alias {e : String × String} (h : e ∈ g.aliases.entries) : e.1 ∈ g.names :=
  List.mem_append_right _ (List.mem_map_of_mem h)

/-- Of a table, nothing but the name itself is registered at the key of its qualified form. -/
theorem Plain.apart (h : g.Plain) {n n' : String} (hn : n ∈ g.names) (hn' : n' ∈ g.names)
    (hne : n ≠ n') :
    ColumnRef.qualify g.table n ≠ n' ∧
      ColumnRef.qualify g.table n ≠ ColumnRef.qualify g.table n' :=
  ⟨(h n hn n' hn').symm, fun heq => hne (ColumnRef.qualify_right_inj.mp heq)⟩

theorem Undotted.of_mem_mentions (h : g.Undotted) {n : String} (hn : n ∈ g.mentions) :
    CriteriaQuery.Undotted n := by
  rcases List.mem_append.mp hn with hn | htarget
  · rcases List.mem_append.mp hn with hfield | halias
    · obtain ⟨e, he, rfl⟩ := List.mem_map.mp hfield
      exact h.fields e he
    · obtain ⟨e, he, rfl⟩ := List.mem_map.mp halias
      exact (h.aliases e he).1
  · obtain ⟨e, he, rfl⟩ := List.mem_map.mp htarget
    exact (h.aliases e he).2

/-- Names without points read like no qualified name, and the qualified ones tell the tables. -/
theorem Undotted.apart (h : g.Undotted) (h' : g'.Undotted) (hne : g.table ≠ g'.table) :
    g.Apart g' := by
  intro n hn n' hn'
  have hname := h.of_mem_mentions hn
  have hname' := h'.of_mem_mentions (List.mem_append_left _ hn')
  refine ⟨ColumnRef.ne_qualify hname' g.table n, ?_⟩
  intro heq
  exact hne ((ColumnRef.qualify_inj hname' hname).mp heq).1.symm

end Registration

namespace AliasRegistry

variable {r r' : AliasRegistry} {g : Registration} {k : String}

/-! ### What every step preserves -/

section Preserved

variable {P : AliasRegistry → Prop} {table : String} {entries : List (String × String)}

theorem preserved_of_registerFields
    (hstep : ∀ e ∈ entries, ∀ r r', P r → NameStep r r' table e.1 ⟨table, e.2⟩ → P r') (h : P r)
    (hr : registerFields table entries r = .ok r') : P r' := by
  induction entries generalizing r with
  | nil =>
      obtain rfl : r = r' := by simpa [registerFields] using hr
      exact h
  | cons e entries ih =>
      obtain ⟨field, name⟩ := e
      obtain ⟨r₁, hfirst, hrest⟩ := bind_eq_ok_iff.mp hr
      have hname := (fieldStep_of_registerField hfirst).nameStep
      have h₁ := hstep (field, name) List.mem_cons_self r r₁ h hname
      exact ih (fun e he => hstep e (List.mem_cons_of_mem _ he)) h₁ hrest

/-- The column of an alias is what the name that it stands for means at that moment. -/
theorem preserved_of_registerAliases
    (hstep : ∀ e ∈ entries, ∀ r r' column, P r →
      r.owners.get? (ColumnRef.qualify table e.2) = some column →
      NameStep r r' table e.1 column → P r')
    (h : P r) (hr : registerAliases table entries r = .ok r') : P r' := by
  induction entries generalizing r with
  | nil =>
      obtain rfl : r = r' := by simpa [registerAliases] using hr
      exact h
  | cons e entries ih =>
      obtain ⟨given, target⟩ := e
      obtain ⟨r₁, hfirst, hrest⟩ := bind_eq_ok_iff.mp hr
      obtain ⟨column, howner, hbinds⟩ := binds_of_registerAlias hfirst
      have h₁ := hstep (given, target) List.mem_cons_self r r₁ column h howner hbinds.nameStep
      exact ih (fun e he => hstep e (List.mem_cons_of_mem _ he)) h₁ hrest

end Preserved

/-! ### Keys that are left alone -/

theorem owners_of_registerFields {table : String} {entries : List (String × String)}
    (hk : ∀ e ∈ entries, k ≠ e.1 ∧ k ≠ ColumnRef.qualify table e.1)
    (hr : registerFields table entries r = .ok r') : r'.owners.get? k = r.owners.get? k := by
  refine preserved_of_registerFields (P := fun r₁ => r₁.owners.get? k = r.owners.get? k)
    ?_ rfl hr
  intro e he r₁ r₂ h hstep
  exact (hstep.owners k (hk e he).1 (hk e he).2).trans h

theorem owners_of_registerAliases {table : String} {entries : List (String × String)}
    (hk : ∀ e ∈ entries, k ≠ e.1 ∧ k ≠ ColumnRef.qualify table e.1)
    (hr : registerAliases table entries r = .ok r') : r'.owners.get? k = r.owners.get? k := by
  refine preserved_of_registerAliases (P := fun r₁ => r₁.owners.get? k = r.owners.get? k)
    ?_ rfl hr
  intro e he r₁ r₂ column h _ hstep
  exact (hstep.owners k (hk e he).1 (hk e he).2).trans h

/-- A registration leaves the keys alone that are none of its names, bare or qualified. -/
theorem owners_of_register (hk : ∀ n ∈ g.names, k ≠ n ∧ k ≠ ColumnRef.qualify g.table n)
    (hr : r.register g.table g.fields g.aliases = .ok r') :
    r'.owners.get? k = r.owners.get? k := by
  obtain ⟨r₁, hfields, haliases⟩ := bind_eq_ok_iff.mp hr
  calc
    r'.owners.get? k = r₁.owners.get? k :=
      owners_of_registerAliases (fun e he => hk e.1 (Registration.mem_names_of_alias he)) haliases
    _ = r.owners.get? k :=
      owners_of_registerFields (fun e he => hk e.1 (Registration.mem_names_of_field he)) hfields

/-! ### One registration -/

/-- Every field means its own column. -/
def ShowsFields (r : AliasRegistry) (g : Registration) : Prop :=
  ∀ e ∈ g.fields.entries,
    r.owners.get? (ColumnRef.qualify g.table e.1) = some ⟨g.table, e.2⟩

/-- Every alias means the column of the field that it stands for. -/
def ShowsAliases (r : AliasRegistry) (g : Registration) : Prop :=
  ∀ e ∈ g.aliases.entries, ∀ column, g.fields.get? e.2 = some column →
    r.owners.get? (ColumnRef.qualify g.table e.1) = some ⟨g.table, column⟩

theorem ShowsFields.owner (h : r.ShowsFields g) {field column : String}
    (hfield : g.fields.get? field = some column) :
    r.owners.get? (ColumnRef.qualify g.table field) = some ⟨g.table, column⟩ :=
  h (field, column) (SortedMap.mem_entries_iff.mpr hfield)

theorem showsFields_of_registerFields {entries : List (String × String)} (hplain : g.Plain)
    (hnames : ∀ e ∈ entries, e.1 ∈ g.names) (hsorted : entries.Pairwise fun a b => a.1 < b.1)
    (hr : registerFields g.table entries r = .ok r') :
    ∀ e ∈ entries, r'.owners.get? (ColumnRef.qualify g.table e.1) = some ⟨g.table, e.2⟩ := by
  induction entries generalizing r with
  | nil => simp
  | cons e entries ih =>
      obtain ⟨field, name⟩ := e
      obtain ⟨r₁, hfirst, hrest⟩ := bind_eq_ok_iff.mp hr
      obtain ⟨hlater, hsorted⟩ := List.pairwise_cons.mp hsorted
      have hstep := (fieldStep_of_registerField hfirst).nameStep
      intro e he
      rcases List.mem_cons.mp he with rfl | he
      · rw [owners_of_registerFields _ hrest]
        · exact hstep.qualified
        · intro e' he'
          apply hplain.apart (hnames _ List.mem_cons_self)
            (hnames e' (List.mem_cons_of_mem _ he'))
          exact fun heq => String.lt_irrefl _ (heq ▸ hlater e' he')
      · exact ih (fun e he => hnames e (List.mem_cons_of_mem _ he)) hsorted hrest e he

section Alias

variable {given target column : String}

/-- An alias of a field means the column of the field from then on. -/
theorem nameStep_of_registerAlias (hfields : r.ShowsFields g)
    (htarget : g.fields.get? target = some column)
    (hr : r.registerAlias g.table given target = .ok r') :
    NameStep r r' g.table given ⟨g.table, column⟩ := by
  obtain ⟨column', howner, hbinds⟩ := binds_of_registerAlias hr
  obtain rfl : column' = ⟨g.table, column⟩ :=
    Option.some.inj (howner.symm.trans (hfields.owner htarget))
  exact hbinds.nameStep

/-- After an alias the fields mean their columns as before, unless the alias has taken over the
name of one with another column. -/
theorem NameStep.showsFields_iff (hstep : NameStep r r' g.table given ⟨g.table, column⟩)
    (hplain : g.Plain) (hgiven : given ∈ g.names) (hfields : r.ShowsFields g) :
    r'.ShowsFields g ↔ ∀ own, g.fields.get? given = some own → own = column := by
  constructor
  · intro h own hown
    have howner := hstep.qualified.symm.trans (h.owner hown)
    exact (ColumnRef.mk.inj (Option.some.inj howner)).2.symm
  · intro h e he
    by_cases heq : e.1 = given
    · have hown : g.fields.get? given = some e.2 := heq ▸ SortedMap.mem_entries_iff.mp he
      rw [heq, hstep.qualified, h e.2 hown]
    · obtain ⟨hbare, hqualified⟩ :=
        hplain.apart (Registration.mem_names_of_field he) hgiven heq
      rw [hstep.owners _ hbare hqualified]
      exact hfields e he

end Alias

/-- The first of several aliases means the column of its field up to the end, and the fields are as
before it unless it has taken over one with another column. -/
theorem exists_column_of_registerAliases_cons {given target : String}
    {entries : List (String × String)} (hplain : g.Plain) (hsound : g.Sound)
    (hentries : ∀ e ∈ (given, target) :: entries, e ∈ g.aliases.entries)
    (hsorted : ((given, target) :: entries).Pairwise fun a b => a.1 < b.1)
    (hfields : r.ShowsFields g)
    (hr : registerAliases g.table ((given, target) :: entries) r = .ok r') :
    ∃ column r₁, g.fields.get? target = some column ∧
      registerAliases g.table entries r₁ = .ok r' ∧
      (r₁.ShowsFields g ↔ ∀ own, g.fields.get? given = some own → own = column) ∧
      r'.owners.get? (ColumnRef.qualify g.table given) = some ⟨g.table, column⟩ := by
  obtain ⟨r₁, hfirst, hrest⟩ := bind_eq_ok_iff.mp hr
  have halias := hentries (given, target) List.mem_cons_self
  have hgiven : given ∈ g.names := Registration.mem_names_of_alias halias
  obtain ⟨column, htarget⟩ := hsound (given, target) halias
  have hstep := nameStep_of_registerAlias hfields htarget hfirst
  refine ⟨column, r₁, htarget, hrest, hstep.showsFields_iff hplain hgiven hfields, ?_⟩
  rw [owners_of_registerAliases _ hrest]
  · exact hstep.qualified
  · intro e he
    have hname := Registration.mem_names_of_alias (hentries e (List.mem_cons_of_mem _ he))
    apply hplain.apart hgiven hname
    exact fun heq => String.lt_irrefl _ (heq ▸ (List.pairwise_cons.mp hsorted).1 e he)

/-- Aliases that take over no field with another column leave the fields as they are, and mean the
columns of the fields that they stand for. -/
theorem shows_of_registerAliases {entries : List (String × String)} (hplain : g.Plain)
    (hsound : g.Sound) (hconsistent : g.Consistent)
    (hentries : ∀ e ∈ entries, e ∈ g.aliases.entries)
    (hsorted : entries.Pairwise fun a b => a.1 < b.1) (hfields : r.ShowsFields g)
    (hr : registerAliases g.table entries r = .ok r') :
    r'.ShowsFields g ∧ ∀ e ∈ entries, ∀ column, g.fields.get? e.2 = some column →
      r'.owners.get? (ColumnRef.qualify g.table e.1) = some ⟨g.table, column⟩ := by
  induction entries generalizing r with
  | nil =>
      obtain rfl : r = r' := by simpa [registerAliases] using hr
      exact ⟨hfields, by simp⟩
  | cons e entries ih =>
      obtain ⟨given, target⟩ := e
      obtain ⟨column, r₁, htarget, hrest, hiff, howner⟩ :=
        exists_column_of_registerAliases_cons hplain hsound hentries hsorted hfields hr
      have hfields₁ : r₁.ShowsFields g := by
        apply hiff.mpr
        intro own hown
        have hsame := hconsistent _ (hentries _ List.mem_cons_self) own hown
        exact Option.some.inj (hsame.symm.trans htarget)
      obtain ⟨hfields', haliases⟩ := ih (fun e he => hentries e (List.mem_cons_of_mem _ he))
        (List.pairwise_cons.mp hsorted).2 hfields₁ hrest
      refine ⟨hfields', ?_⟩
      intro e he own hown
      rcases List.mem_cons.mp he with rfl | he
      · obtain rfl := Option.some.inj (htarget.symm.trans hown)
        exact howner
      · exact haliases e he own hown

/-- Where fields still mean their own columns after the aliases, no alias has taken over a field
with another column. -/
theorem consistent_of_registerAliases {entries : List (String × String)} (hplain : g.Plain)
    (hsound : g.Sound) (hentries : ∀ e ∈ entries, e ∈ g.aliases.entries)
    (hsorted : entries.Pairwise fun a b => a.1 < b.1) (hfields : r.ShowsFields g)
    (hr : registerAliases g.table entries r = .ok r') (hfields' : r'.ShowsFields g) :
    ∀ e ∈ entries, ∀ column, g.fields.get? e.1 = some column →
      g.fields.get? e.2 = some column := by
  induction entries generalizing r with
  | nil => simp
  | cons e entries ih =>
      obtain ⟨given, target⟩ := e
      obtain ⟨column, r₁, htarget, hrest, hiff, howner⟩ :=
        exists_column_of_registerAliases_cons hplain hsound hentries hsorted hfields hr
      -- at the end the name means the column of the target, and a field means its own
      have hown : ∀ own, g.fields.get? given = some own → own = column := by
        intro own hown
        have hsame := Option.some.inj (howner.symm.trans (hfields'.owner hown))
        exact (ColumnRef.mk.inj hsame).2.symm
      intro e he own hfield
      rcases List.mem_cons.mp he with rfl | he
      · rw [hown own hfield]
        exact htarget
      · exact ih (fun e he => hentries e (List.mem_cons_of_mem _ he))
          (List.pairwise_cons.mp hsorted).2 (hiff.mpr hown) hrest e he own hfield

/-- After its registration the fields of a table mean their own columns exactly if no alias takes
over one with another column; then its aliases mean the columns of their fields. -/
theorem shows_of_register (hplain : g.Plain) (hsound : g.Sound)
    (hr : r.register g.table g.fields g.aliases = .ok r') :
    (r'.ShowsFields g ↔ g.Consistent) ∧ (g.Consistent → r'.ShowsAliases g) := by
  obtain ⟨r₁, hfields, haliases⟩ := bind_eq_ok_iff.mp hr
  have hshows : r₁.ShowsFields g :=
    showsFields_of_registerFields hplain (fun _ => Registration.mem_names_of_field)
      g.fields.sorted hfields
  have hkept : g.Consistent → r'.ShowsFields g ∧ r'.ShowsAliases g := by
    intro hconsistent
    exact shows_of_registerAliases hplain hsound hconsistent (fun _ => id) g.aliases.sorted hshows
      haliases
  refine ⟨⟨?_, fun hconsistent => (hkept hconsistent).1⟩, fun hconsistent => (hkept hconsistent).2⟩
  exact consistent_of_registerAliases hplain hsound (fun _ => id) g.aliases.sorted hshows haliases

/-! ### Runs -/

/-- What a table shows depends on the qualified names of its fields and aliases alone. -/
theorem shows_congr
    (h : ∀ n ∈ g.names, r'.owners.get? (ColumnRef.qualify g.table n) =
      r.owners.get? (ColumnRef.qualify g.table n)) :
    (r'.ShowsFields g ↔ r.ShowsFields g) ∧ (r'.ShowsAliases g ↔ r.ShowsAliases g) := by
  constructor
  · apply forall₂_congr
    intro e he
    rw [h e.1 (Registration.mem_names_of_field he)]
  · apply forall₂_congr
    intro e he
    rw [h e.1 (Registration.mem_names_of_alias he)]

/-- Of tables that are registered once each, the fields mean their own columns exactly if no alias
takes over one with another column; then the aliases mean the columns of their fields. -/
theorem shows_of_registered {gs : List Registration} (h : Registered gs r)
    (hseparate : Registration.Separate gs) (hnodup : (gs.map (·.table)).Nodup)
    (hsound : ∀ g ∈ gs, g.Sound) :
    ∀ g ∈ gs, (r.ShowsFields g ↔ g.Consistent) ∧ (g.Consistent → r.ShowsAliases g) := by
  induction h with
  | start => simp
  | @next gs last r r' _ hr ih =>
      have hlast : last ∈ gs ++ [last] := List.mem_append_right _ (List.mem_singleton_self last)
      rw [List.map_append, List.nodup_append] at hnodup
      obtain ⟨hnodup, -, hfresh⟩ := hnodup
      have hbefore := ih
        ⟨fun a ha b hb => hseparate.across a (List.mem_append_left _ ha) b
            (List.mem_append_left _ hb),
          fun g hg => hseparate.within g (List.mem_append_left _ hg)⟩
        hnodup fun g hg => hsound g (List.mem_append_left _ hg)
      intro g hg
      rcases List.mem_append.mp hg with hg | hg
      · have htable : g.table ≠ last.table := by
          apply hfresh g.table (List.mem_map_of_mem hg)
          simp
        have hkeys : ∀ n ∈ g.names, r'.owners.get? (ColumnRef.qualify g.table n) =
            r.owners.get? (ColumnRef.qualify g.table n) := by
          intro n hn
          apply owners_of_register _ hr
          intro n' hn'
          obtain ⟨hbare, hqualified⟩ := hseparate.across g (List.mem_append_left _ hg) last hlast
            htable n (List.mem_append_left _ hn) n' hn'
          exact ⟨hbare.symm, hqualified.symm⟩
        obtain ⟨hfields, haliases⟩ := shows_congr hkeys
        rw [hfields, haliases]
        exact hbefore g hg
      · obtain rfl := List.mem_singleton.mp hg
        exact shows_of_register (hseparate.within g hlast) (hsound g hlast) hr

/-! ### Tables -/

/-- Every name that means a column means one of these tables. -/
def Within (r : AliasRegistry) (tables : List String) : Prop :=
  ∀ k column, r.owners.get? k = some column → column.table ∈ tables

section Within

variable {tables : List String}

theorem within_empty (tables : List String) : (∅ : AliasRegistry).Within tables := by
  intro k column h
  have hnone : (∅ : AliasRegistry).owners.get? k = none := rfl
  simp [hnone] at h

theorem Within.of_nameStep (h : r.Within tables) {table name : String} {column : ColumnRef}
    (hstep : NameStep r r' table name column) (hcolumn : column.table ∈ tables) :
    r'.Within tables := by
  intro k c hk
  rcases hstep.owned k c hk with rfl | hbefore
  · exact hcolumn
  · exact h k c hbefore

/-- A field means a column of its table, and an alias one that some name has meant before. -/
theorem Within.of_register (h : r.Within tables) (hg : g.table ∈ tables)
    (hr : r.register g.table g.fields g.aliases = .ok r') : r'.Within tables := by
  obtain ⟨r₁, hfields, haliases⟩ := bind_eq_ok_iff.mp hr
  have h₁ : r₁.Within tables := by
    apply preserved_of_registerFields _ h hfields
    intro _ _ r r' h hstep
    exact h.of_nameStep hstep hg
  apply preserved_of_registerAliases _ h₁ haliases
  intro _ _ r r' column h howner hstep
  exact h.of_nameStep hstep (h _ column howner)

/-- Whatever a name means is a column of a table that was registered. -/
theorem within_of_registered {gs : List Registration} (h : Registered gs r)
    (hgs : ∀ g ∈ gs, g.table ∈ tables) : r.Within tables := by
  induction h with
  | start => exact within_empty tables
  | @next gs g r r' _ hr ih =>
      have hbefore := ih fun g' hg' => hgs g' (List.mem_append_left _ hg')
      exact hbefore.of_register (hgs g (List.mem_append_right _ (List.mem_singleton_self g))) hr

end Within

end AliasRegistry

end CriteriaQuery
