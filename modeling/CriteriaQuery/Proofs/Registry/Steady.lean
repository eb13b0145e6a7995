import CriteriaQuery.Proofs.Registry.Columns
import CriteriaQuery.Proofs.Registry.Index

/-!
# Names that stay

The index of the names of a column is the look-up read backwards, also for names that hold points,
exactly as long as none of these is bound to another column than before. Where one is, the column
that it has meant keeps the name for good: only the part after the last point is taken from it.

## Implementation notes

Nothing is asked of names but that none reads like a qualified one. So bare names and qualified ones
are told apart without looking at their points, and a key that means a column is a name of it.
-/

namespace CriteriaQuery

namespace Registration

/-- No name reads like a qualified one, be it of its own table or a name that another table speaks
of. -/
structure Legible (gs : List Registration) : Prop where
  across : ∀ a ∈ gs, ∀ b ∈ gs, a.table ≠ b.table → a.Apart b
  within : ∀ g ∈ gs, ∀ n ∈ g.names, ∀ n', n ≠ ColumnRef.qualify g.table n'

/-- At the key of a qualified name stands nothing but the name itself. -/
theorem Legible.apart {gs : List Registration} (h : Legible gs) {a b : Registration} (ha : a ∈ gs)
    (hb : b ∈ gs) {n n' : String} (hn : n ∈ a.mentions) (hn' : n' ∈ b.names) :
    ColumnRef.qualify a.table n ≠ n' ∧
      (ColumnRef.qualify a.table n = ColumnRef.qualify b.table n' → a.table = b.table ∧ n = n') := by
  by_cases htable : a.table = b.table
  · rw [htable]
    refine ⟨(h.within b hb n' hn' n).symm, fun heq => ⟨rfl, ?_⟩⟩
    exact ColumnRef.qualify_right_inj.mp heq
  · obtain ⟨hbare, hqualified⟩ := h.across a ha b hb htable n hn n' hn'
    exact ⟨hbare.symm, fun heq => absurd heq.symm hqualified⟩

end Registration

namespace Bindings

/-- A name that holds a point is bound to no other column than before. -/
def Steadies (m : Bindings) (table name : String) (column : ColumnRef) : Prop :=
  Undotted name ∨ ∀ c ∈ m table name, c = column

/-- The fields of a list stay, each after those before it. -/
def SteadyFields (table : String) : List (String × String) → Bindings → Prop
  | [], _ => True
  | (field, name) :: rest, m =>
    m.Steadies table field ⟨table, name⟩ ∧
      SteadyFields table rest (m.bind table field ⟨table, name⟩)

/-- The aliases of a list stay, each after those before it. -/
def SteadyAliases (table : String) : List (String × String) → Bindings → Prop
  | [], _ => True
  | (given, target) :: rest, m =>
    match m table target with
    | some column =>
      m.Steadies table given column ∧ SteadyAliases table rest (m.bind table given column)
    | none => SteadyAliases table rest m

/-- The names of a registration stay. -/
def Steady (m : Bindings) (g : Registration) : Prop :=
  SteadyFields g.table g.fields.entries m ∧
    SteadyAliases g.table g.aliases.entries (bindFields g.table g.fields.entries m)

/-- The names of all registrations stay, of each after those before it. -/
def SteadyAll : List Registration → Bindings → Prop
  | [], _ => True
  | g :: gs, m => m.Steady g ∧ SteadyAll gs (m.after g)

instance (m : Bindings) (table name : String) (column : ColumnRef) :
    Decidable (m.Steadies table name column) :=
  inferInstanceAs (Decidable (Undotted name ∨ ∀ c ∈ m table name, c = column))

instance decidableSteadyFields (table : String) :
    (entries : List (String × String)) → (m : Bindings) → Decidable (SteadyFields table entries m)
  | [], _ => isTrue trivial
  | (field, name) :: rest, m =>
    have := decidableSteadyFields table rest (m.bind table field ⟨table, name⟩)
    inferInstanceAs (Decidable (_ ∧ _))

instance decidableSteadyAliases (table : String) :
    (entries : List (String × String)) → (m : Bindings) → Decidable (SteadyAliases table entries m)
  | [], _ => isTrue trivial
  | (given, target) :: rest, m =>
    match h : m table target with
    | some column =>
      have := decidableSteadyAliases table rest (m.bind table given column)
      decidable_of_iff (m.Steadies table given column ∧
        SteadyAliases table rest (m.bind table given column)) (by simp [SteadyAliases, h])
    | none =>
      have := decidableSteadyAliases table rest m
      decidable_of_iff (SteadyAliases table rest m) (by simp [SteadyAliases, h])

instance (m : Bindings) (g : Registration) : Decidable (m.Steady g) :=
  inferInstanceAs (Decidable (_ ∧ _))

instance decidableSteadyAll :
    (gs : List Registration) → (m : Bindings) → Decidable (SteadyAll gs m)
  | [], _ => isTrue trivial
  | g :: gs, m =>
    have := decidableSteadyAll gs (m.after g)
    inferInstanceAs (Decidable (_ ∧ _))

theorem steadyAll_concat_iff {gs : List Registration} {g : Registration} {m : Bindings} :
    SteadyAll (gs ++ [g]) m ↔ SteadyAll gs m ∧ (gs.foldl after m).Steady g := by
  induction gs generalizing m with
  | nil => simp [SteadyAll]
  | cons g' gs ih => simp only [List.cons_append, SteadyAll, ih, List.foldl_cons, and_assoc]

end Bindings

namespace AliasRegistry

open Registration

variable {r r' : AliasRegistry} {gs : List Registration} {g : Registration} {m : Bindings}
  {column c : ColumnRef} {name n : String} {steady : Prop}

/-! ### Keys of names -/

/-- What means a column is a name of it that its table has bound, bare or qualified; and a qualified
name means what it is bound to. -/
structure Keyed (r : AliasRegistry) (gs : List Registration) (m : Bindings) : Prop where
  declared : ∀ t n c, m t n = some c → c.table = t ∧ ∃ g ∈ gs, g.table = t ∧ n ∈ g.names
  qualified : ∀ g ∈ gs, ∀ n ∈ g.mentions, r.owners.get? (ColumnRef.qualify g.table n) = m g.table n
  keys : ∀ k c, r.owners.get? k = some c →
    ∃ n, m c.table n = some c ∧ (k = n ∨ k = ColumnRef.qualify c.table n)
  shared : ∀ k tables, r.shared.get? k = some tables →
    r.owners.get? k = none ∧ ∃ g ∈ gs, k ∈ g.names

theorem keyed_empty (gs : List Registration) : (∅ : AliasRegistry).Keyed gs fun _ _ => none where
  declared := by simp
  qualified := fun _ _ _ _ => rfl
  keys k c h := by
    have hnone : (∅ : AliasRegistry).owners.get? k = none := rfl
    simp [hnone] at h
  shared k tables h := by
    have hnone : (∅ : AliasRegistry).shared.get? k = none := rfl
    simp [hnone] at h

/-- A bare name that means a column is a name of it. -/
theorem Keyed.bound_of_bare (h : r.Keyed gs m) (hlegible : Legible gs) (hg : g ∈ gs)
    (hname : name ∈ g.names) (howner : r.owners.get? name = some c) : m c.table name = some c := by
  obtain ⟨n, hbound, rfl | hkey⟩ := h.keys name c howner
  · exact hbound
  · obtain ⟨-, a, ha, htable, hn⟩ := h.declared _ _ _ hbound
    have hapart := (hlegible.apart ha hg (List.mem_append_left _ hn) hname).1
    exact absurd (htable ▸ hkey.symm) hapart

theorem Keyed.unshared (h : r.Keyed gs m) (howner : r.owners.get? n = some c) :
    r.shared.get? n = none := by
  cases hshared : r.shared.get? n with
  | none => rfl
  | some tables => simp [(h.shared n tables hshared).1] at howner

theorem Keyed.tracks (h : r.Keyed gs m) (hlegible : Legible gs) (hg : g ∈ gs)
    (hname : name ∈ g.names) : r.Tracks m g.table name where
  qualified := h.qualified g hg name (List.mem_append_left _ hname)
  bare _ _ howner htable := htable ▸ h.bound_of_bare hlegible hg hname howner

/-- The qualified form of any name means a column of the table exactly if the table has bound the
name to it. -/
theorem Keyed.owner_iff (h : r.Keyed gs m) (hlegible : Legible gs) :
    r.owners.get? (ColumnRef.qualify c.table n) = some c ↔ m c.table n = some c := by
  constructor
  · intro howner
    obtain ⟨n', hbound, hkey⟩ := h.keys _ c howner
    rcases hkey with hbare | hqualified
    · obtain ⟨-, g, hg, htable, hname⟩ := h.declared _ _ _ hbound
      exact absurd hbare.symm (htable ▸ hlegible.within g hg n' hname n)
    · rw [ColumnRef.qualify_right_inj.mp hqualified]
      exact hbound
  · intro hbound
    obtain ⟨-, g, hg, htable, hname⟩ := h.declared _ _ _ hbound
    rw [← htable] at hbound ⊢
    rw [h.qualified g hg n (List.mem_append_left _ hname)]
    exact hbound

theorem FieldStep.disjoint (h : FieldStep r r' name column)
    (hr : ∀ tables, r.shared.get? name = some tables → r.owners.get? name = none) :
    ∀ tables, r'.shared.get? name = some tables → r'.owners.get? name = none := by
  intro tables htables
  cases h with
  | binds h =>
      rw [h.shared, h.unshared] at htables
      simp at htables
  | divides existing unshared taken other owners shared =>
      rw [owners]
      simp [ColumnRef.ne_qualify_self]
  | joins tables already owners shared =>
      rw [owners]
      simp [ColumnRef.ne_qualify_self, hr tables already]

/-- The bare name means the column afterwards, or else still a column of another table. -/
theorem Keyed.bare_of_nameStep (h : r.Keyed gs m) (hlegible : Legible gs) (hg : g ∈ gs)
    (hname : name ∈ g.names) (hstep : NameStep r r' g.table name column)
    (howner : r'.owners.get? name = some c) :
    c = column ∨ c.table ≠ g.table ∧ m c.table name = some c := by
  rcases hstep.owned name c howner with heq | hbefore
  · exact Or.inl heq
  · by_cases htable : c.table = g.table
    · left
      have hfree : ∀ existing, r.owners.get? name = some existing → existing.table = g.table := by
        intro existing hexisting
        rw [Option.some.inj (hexisting.symm.trans hbefore)]
        exact htable
      have hafter := (hstep.bare (h.unshared hbefore) hfree).2
      exact Option.some.inj (howner.symm.trans hafter)
    · exact Or.inr ⟨htable, h.bound_of_bare hlegible hg hname hbefore⟩

theorem Keyed.of_nameStep (h : r.Keyed gs m) (hlegible : Legible gs) (hg : g ∈ gs)
    (hname : name ∈ g.names) (hcolumn : column.table = g.table)
    (hstep : NameStep r r' g.table name column)
    (hdisjoint : ∀ tables, r'.shared.get? name = some tables → r'.owners.get? name = none) :
    r'.Keyed gs (m.bind g.table name column) where
  declared t n c hc := by
    unfold Bindings.bind at hc
    split at hc
    · next hsame =>
        obtain ⟨rfl, rfl⟩ := hsame
        obtain rfl := Option.some.inj hc
        exact ⟨hcolumn, g, hg, rfl, hname⟩
    · exact h.declared t n c hc
  qualified a ha n hn := by
    obtain ⟨hbare, hqualified⟩ := hlegible.apart ha hg hn hname
    unfold Bindings.bind
    by_cases hsame : a.table = g.table ∧ n = name
    · rw [if_pos hsame, hsame.1, hsame.2, hstep.qualified]
    · have hother := hstep.owners _ hbare fun heq => hsame (hqualified heq)
      rw [if_neg hsame, hother, h.qualified a ha n hn]
  keys k c hk := by
    by_cases hqualified : k = ColumnRef.qualify g.table name
    · rw [hqualified, hstep.qualified] at hk
      obtain rfl := Option.some.inj hk
      exact ⟨name, by simp [Bindings.bind, hcolumn], Or.inr (hcolumn ▸ hqualified)⟩
    · by_cases hbare : k = name
      · rw [hbare] at hk ⊢
        rcases h.bare_of_nameStep hlegible hg hname hstep hk with rfl | ⟨htable, hbound⟩
        · exact ⟨name, by simp [Bindings.bind, hcolumn], Or.inl rfl⟩
        · exact ⟨name, by simp [Bindings.bind, htable, hbound], Or.inl rfl⟩
      · rw [hstep.owners k hbare hqualified] at hk
        obtain ⟨n, hbound, hkey⟩ := h.keys k c hk
        refine ⟨n, ?_, hkey⟩
        unfold Bindings.bind
        rw [if_neg, hbound]
        rintro ⟨htable, rfl⟩
        rcases hkey with rfl | rfl
        · exact hbare rfl
        · exact hqualified (htable ▸ rfl)
  shared k tables hk := by
    by_cases hbare : k = name
    · exact ⟨hbare ▸ hdisjoint tables (hbare ▸ hk), g, hg, hbare ▸ hname⟩
    · rw [hstep.shared k hbare] at hk
      obtain ⟨hnone, a, ha, hmem⟩ := h.shared k tables hk
      have hkey := (hlegible.apart hg ha (List.mem_append_left _ hname) hmem).1
      exact ⟨(hstep.owners k hbare hkey.symm).trans hnone, a, ha, hmem⟩

/-! ### What is left of a name -/

/-- A name that holds a point is in the index of two columns of a table. -/
def Doubled (r : AliasRegistry) : Prop :=
  ∃ c c' n, c ≠ c' ∧ c.table = c'.table ∧ ¬ Undotted n ∧ r.Knows c n ∧ r.Knows c' n

/-- No column loses a name that holds a point. -/
theorem Renames.knows_of_pointed (h : Renames r r' m name column) (hn : ¬ Undotted n)
    (hknows : r.Knows c n) : r'.Knows c n := by
  refine (h.knows c n).mpr (Or.inl ⟨hknows, ?_⟩)
  rintro ⟨-, -, rfl⟩
  exact hn (undotted_barePart name)

theorem Doubled.of_renames (h : r.Doubled) (hstep : Renames r r' m name column) : r'.Doubled := by
  obtain ⟨c, c', n, hne, htable, hn, hknows, hknows'⟩ := h
  exact ⟨c, c', n, hne, htable, hn, hstep.knows_of_pointed hn hknows,
    hstep.knows_of_pointed hn hknows'⟩

/-- The index is the look-up read backwards as long as names stay, and shows it when one has not. -/
structure Traces (r : AliasRegistry) (m : Bindings) (steady : Prop) : Prop where
  inverts : steady → r.Inverts m
  doubled : ¬ steady → r.Doubled

theorem traces_empty : (∅ : AliasRegistry).Traces (fun _ _ => none) True where
  inverts _ c n := by
    have hnone : (∅ : AliasRegistry).aliases.get? c = none := rfl
    simp [Knows, hnone]
  doubled h := absurd trivial h

theorem Traces.congr (h : r.Traces m steady) {steady' : Prop} (hiff : steady ↔ steady') :
    r.Traces m steady' := propext hiff ▸ h

theorem Traces.of_renames (h : r.Traces m steady) (hown : ∀ t n c, m t n = some c → c.table = t)
    (hstep : Renames r r' m name column) :
    r'.Traces (m.bind column.table name column) (steady ∧ m.Steadies column.table name column) where
  inverts hboth := (h.inverts hboth.1).of_renames hown hboth.2 hstep
  doubled hlost := by
    by_cases hsteady : steady
    · -- the name stays with the column that it has meant, and comes to the other one
      have hmoved : ¬ m.Steadies column.table name column := fun hstays => hlost ⟨hsteady, hstays⟩
      simp only [Bindings.Steadies, not_or, not_forall] at hmoved
      obtain ⟨hname, c, hbound, hne⟩ := hmoved
      have htable := hown _ _ _ hbound
      have hknows : r.Knows c name := (h.inverts hsteady c name).mpr (htable ▸ hbound)
      exact ⟨c, column, name, hne, htable, hname, hstep.knows_of_pointed hname hknows,
        (hstep.knows column name).mpr (Or.inr ⟨rfl, rfl⟩)⟩
    · exact (h.doubled hsteady).of_renames hstep

/-! ### Runs -/

theorem Keyed.of_registerFields {entries : List (String × String)} (h : r.Keyed gs m)
    (htraces : r.Traces m steady) (hlegible : Legible gs) (hg : g ∈ gs)
    (hentries : ∀ e ∈ entries, e.1 ∈ g.names) (hr : registerFields g.table entries r = .ok r') :
    r'.Keyed gs (m.bindFields g.table entries) ∧
      r'.Traces (m.bindFields g.table entries)
        (steady ∧ Bindings.SteadyFields g.table entries m) := by
  induction entries generalizing r m steady with
  | nil =>
      obtain rfl : r = r' := by simpa [registerFields] using hr
      exact ⟨h, htraces.congr (and_iff_left trivial).symm⟩
  | cons e entries ih =>
      obtain ⟨field, column⟩ := e
      obtain ⟨r₁, hfirst, hrest⟩ := bind_eq_ok_iff.mp hr
      have hfield : field ∈ g.names := hentries (field, column) List.mem_cons_self
      have hstep := fieldStep_of_registerField hfirst
      have hdisjoint := hstep.disjoint fun tables htables => (h.shared field tables htables).1
      have hkeyed := h.of_nameStep hlegible hg hfield rfl hstep.nameStep hdisjoint
      have hrenames := renames_of_registerField (h.tracks hlegible hg hfield) hfirst
      have hnext := htraces.of_renames (fun t n c hc => (h.declared t n c hc).1) hrenames
      obtain ⟨hkeyed', htraces'⟩ :=
        ih hkeyed hnext (fun e he => hentries e (List.mem_cons_of_mem _ he)) hrest
      exact ⟨hkeyed', htraces'.congr and_assoc⟩

theorem Keyed.of_registerAliases {entries : List (String × String)} (h : r.Keyed gs m)
    (htraces : r.Traces m steady) (hlegible : Legible gs) (hg : g ∈ gs)
    (hentries : ∀ e ∈ entries, e.1 ∈ g.names ∧ e.2 ∈ g.mentions)
    (hr : registerAliases g.table entries r = .ok r') :
    r'.Keyed gs (m.bindAliases g.table entries) ∧
      r'.Traces (m.bindAliases g.table entries)
        (steady ∧ Bindings.SteadyAliases g.table entries m) := by
  induction entries generalizing r m steady with
  | nil =>
      obtain rfl : r = r' := by simpa [registerAliases] using hr
      exact ⟨h, htraces.congr (and_iff_left trivial).symm⟩
  | cons e entries ih =>
      obtain ⟨given, target⟩ := e
      obtain ⟨r₁, hfirst, hrest⟩ := bind_eq_ok_iff.mp hr
      obtain ⟨hgiven, htarget⟩ := hentries (given, target) List.mem_cons_self
      obtain ⟨column, howner, hbinds⟩ := binds_of_registerAlias hfirst
      have hbound := (h.qualified g hg target htarget).symm.trans howner
      have hcolumn := (h.declared _ _ _ hbound).1
      have hdisjoint : ∀ tables, r₁.shared.get? given = some tables →
          r₁.owners.get? given = none := by
        intro tables htables
        rw [hbinds.shared, hbinds.unshared] at htables
        simp at htables
      have hkeyed := h.of_nameStep hlegible hg hgiven hcolumn hbinds.nameStep hdisjoint
      have hrenames :=
        renames_of_registerAlias (h.tracks hlegible hg hgiven) hcolumn howner hfirst
      have hnext := htraces.of_renames (fun t n c hc => (h.declared t n c hc).1) hrenames
      rw [hcolumn] at hnext
      obtain ⟨hkeyed', htraces'⟩ :=
        ih hkeyed hnext (fun e he => hentries e (List.mem_cons_of_mem _ he)) hrest
      simp only [Bindings.bindAliases, Bindings.SteadyAliases, hbound]
      exact ⟨hkeyed', htraces'.congr and_assoc⟩

theorem Keyed.of_register (h : r.Keyed gs m) (htraces : r.Traces m steady) (hlegible : Legible gs)
    (hg : g ∈ gs) (hr : r.register g.table g.fields g.aliases = .ok r') :
    r'.Keyed gs (m.after g) ∧ r'.Traces (m.after g) (steady ∧ m.Steady g) := by
  obtain ⟨r₁, hfields, haliases⟩ := bind_eq_ok_iff.mp hr
  obtain ⟨hkeyed, htraces⟩ := h.of_registerFields htraces hlegible hg
    (fun e he => mem_names_of_field he) hfields
  obtain ⟨hkeyed, htraces⟩ := hkeyed.of_registerAliases htraces hlegible hg
    (fun e he => ⟨mem_names_of_alias he, List.mem_append_right _ (List.mem_map_of_mem he)⟩) haliases
  exact ⟨hkeyed, htraces.congr and_assoc⟩

/-- Along a run the keys stay told apart, and the index tells whether all names have stayed. -/
theorem keyed_of_registered {done : List Registration} (h : Registered done r)
    (hlegible : Legible gs) (hdone : ∀ g ∈ done, g ∈ gs) :
    r.Keyed gs (Bindings.ofAll done) ∧
      r.Traces (Bindings.ofAll done) (Bindings.SteadyAll done fun _ _ => none) := by
  induction h with
  | start => exact ⟨keyed_empty gs, traces_empty⟩
  | @next done g r r' _ hr ih =>
      obtain ⟨hkeyed, htraces⟩ := ih fun g' hg' => hdone g' (List.mem_append_left _ hg')
      have hg : g ∈ gs := hdone g (List.mem_append_right _ (List.mem_singleton_self g))
      rw [Bindings.steadyAll_concat_iff, Bindings.ofAll, List.foldl_append]
      exact hkeyed.of_register htraces hlegible hg hr

/-! ### The index and the look-up -/

theorem knows_iff : (∃ names, r.aliasesOf? c = some names ∧ n ∈ names) ↔ r.Knows c n := by
  simp [aliasesOf?, Knows, SortedSet.mem_toList_iff]

/-- As long as no name reads like a qualified one, whatever points it holds, the index lists exactly
the names of a column that resolve to it, qualified by its table, if and only if no name that holds
a point was ever bound to another column than before. -/
theorem index_inverts_iff_steady (gs : List Registration) (r : AliasRegistry)
    (h : Registered gs r) (hlegible : Legible gs) :
    (∀ column name, (∃ names, r.aliasesOf? column = some names ∧ name ∈ names) ↔
      r.resolve (ColumnRef.qualify column.table name) = .ok column) ↔
    Bindings.SteadyAll gs fun _ _ => none := by
  obtain ⟨hkeyed, htraces⟩ := keyed_of_registered h hlegible fun _ => id
  simp only [knows_iff, resolve_eq_ok_iff]
  constructor
  · intro hmirror
    by_contra hmoved
    obtain ⟨c, c', n, hne, htable, -, hknows, hknows'⟩ := htraces.doubled hmoved
    have howner := (hmirror c n).mp hknows
    have howner' := (hmirror c' n).mp hknows'
    rw [htable] at howner
    exact hne (Option.some.inj (howner.symm.trans howner'))
  · intro hsteady column name
    rw [hkeyed.owner_iff hlegible]
    exact htraces.inverts hsteady column name

/-- A table is registered again: the field that holds a point keeps its column, the other field and
the alias get other ones. -/
def keptRegistrations : List Registration := [
  ⟨"t", SortedMap.ofList [("a.b", "x"), ("id", "y")], SortedMap.ofList [("key", "a.b")]⟩,
  ⟨"t", SortedMap.ofList [("a.b", "x"), ("id", "z")], SortedMap.ofList [("key", "id")]⟩]

theorem index_inverts_iff_steady_kept :
    ∃ r, Registered keptRegistrations r ∧ Legible keptRegistrations ∧
      r.resolve (ColumnRef.qualify "t" "key") = .ok ⟨"t", "z"⟩ ∧
      ∀ column name, (∃ names, r.aliasesOf? column = some names ∧ name ∈ names) ↔
        r.resolve (ColumnRef.qualify column.table name) = .ok column := by
  have hwithin : ∀ g ∈ keptRegistrations, ∀ n ∈ g.names, ∀ n',
      n ≠ ColumnRef.qualify g.table n' := by
    have hnames : ∀ g ∈ keptRegistrations,
        g.table = "t" ∧ ∀ n ∈ g.names, n.toList.head? ≠ some 't' := by
      decide
    rintro g hg n hn n' rfl
    obtain ⟨htable, hhead⟩ := hnames g hg
    exact hhead _ hn (by simp [ColumnRef.qualify, htable])
  have hlegible : Legible keptRegistrations :=
    ⟨fun a ha b hb hne => absurd hne (by revert a b; decide), hwithin⟩
  obtain ⟨r, h, hkey⟩ : ∃ r, Registered keptRegistrations r ∧
      r.resolve (ColumnRef.qualify "t" "key") = .ok ⟨"t", "z"⟩ :=
    ⟨_, (Registered.start.next rfl).next rfl, rfl⟩
  exact ⟨r, h, hlegible, hkey,
    (index_inverts_iff_steady keptRegistrations r h hlegible).mpr (by decide)⟩

/-- A field that holds a point gets another column; its last part is a field by itself. -/
def movedRegistrations : List Registration := [
  ⟨"t", SortedMap.ofList [("a.b", "x"), ("b", "x")], ∅⟩,
  ⟨"t", SortedMap.ofList [("a.b", "y")], ∅⟩]

/-- A field that reads like the qualified name of another one. -/
def overreadRegistrations : List Registration := [⟨"t", SortedMap.ofList [("t.a", "x")], ∅⟩]

/-- The index keeps a name that means another column by then, and loses one that does not; and it
misses one that another name reads like. -/
theorem index_differs_moved :
    (∃ r, Registered movedRegistrations r ∧
      r.aliasesOf? ⟨"t", "x"⟩ = some ["a.b"] ∧
      r.resolve (ColumnRef.qualify "t" "a.b") = .ok ⟨"t", "y"⟩ ∧
      r.resolve (ColumnRef.qualify "t" "b") = .ok ⟨"t", "x"⟩) ∧
    ∃ r, Registered overreadRegistrations r ∧
      r.aliasesOf? ⟨"t", "x"⟩ = some ["t.a"] ∧
      r.resolve (ColumnRef.qualify "t" "a") = .ok ⟨"t", "x"⟩ := by
  constructor
  · exact ⟨_, (Registered.start.next rfl).next rfl, rfl, rfl, rfl⟩
  · exact ⟨_, Registered.start.next rfl, rfl, rfl⟩

end AliasRegistry

end CriteriaQuery
