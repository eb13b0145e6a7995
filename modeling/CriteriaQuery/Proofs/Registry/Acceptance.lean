import CriteriaQuery.Proofs.Registry.Index
import CriteriaQuery.Proofs.Registry.Once

/-!
# When tables are accepted

Tables that come once each are all accepted exactly if the aliases of each stand for names that it
has by then, and no alias of a table is a name of another one. Neither depends on which table comes
first: a clash of an alias with an alias, a field or a shared field, or of a field with an alias, is
found whichever of the two is there already.

## Implementation notes

Names are taken to hold no point, so a table that is new has no names in the registry that it comes
to. Everything that a registry holds is said of the tables that it was made from.
-/

namespace CriteriaQuery

namespace AliasRegistry

variable {r r' : AliasRegistry} {m : Bindings} {table : String}
  {entries : List (String × String)}

/-! ### Explicit names -/

/-- A field is accepted unless another table has its name as an alias, and no name becomes explicit
by it. -/
theorem registerField_eq_ok_iff {field : String} (name : String) :
    (∃ r', r.registerField table field name = .ok r') ↔
      ∀ owner, r.explicit.get? field = some owner → owner = table := by
  unfold registerField
  cases howner : r.explicit.get? field with
  | none => simp
  | some owner =>
      by_cases htable : owner = table
      · simp [htable]
      · simp [htable]

theorem explicit_of_registerField {field name : String}
    (hr : r.registerField table field name = .ok r') : r'.explicit = r.explicit := by
  rw [eq_of_registerField hr]
  simp

theorem explicit_of_registerAlias {given target : String}
    (hr : r.registerAlias table given target = .ok r') :
    r'.explicit = r.explicit.insert given table := by
  obtain ⟨_, -, -, rfl⟩ := eq_of_registerAlias hr
  rfl

/-! ### What a registry tells -/

/-- A registry tells what tables bind: in its look-up, in its index, and of the names that are
shared or explicit. -/
structure Tells (r : AliasRegistry) (m : Bindings) : Prop where
  holds : r.Holds m
  inverts : r.Inverts m
  undotted : ∀ k tables, r.shared.get? k = some tables → Undotted k
  /-- Explicit names are bound by their tables. -/
  bound : ∀ n t, r.explicit.get? n = some t → m.Declares t n

theorem tells_empty : (∅ : AliasRegistry).Tells fun _ _ => none where
  holds := holds_empty
  inverts c n := by
    have hnone : (∅ : AliasRegistry).aliases.get? c = none := rfl
    simp [Knows, hnone]
  undotted k tables h := by
    have hnone : (∅ : AliasRegistry).shared.get? k = none := rfl
    simp [hnone] at h
  bound n t h := by
    have hnone : (∅ : AliasRegistry).explicit.get? n = none := rfl
    simp [hnone] at h

theorem Tells.of_registerField (h : r.Tells m) {field name : String} (hfield : Undotted field)
    (hr : r.registerField table field name = .ok r') :
    r'.Tells (m.bind table field ⟨table, name⟩) := by
  have hstep := fieldStep_of_registerField hr
  constructor
  · exact h.holds.of_fieldStep hfield hstep
  · exact h.inverts.of_renames h.holds.own (Or.inl hfield)
      (renames_of_registerField (h.holds.tracks hfield table) hr)
  · intro k tables hk
    by_cases hkey : k = field
    · exact hkey ▸ hfield
    · exact h.undotted k tables ((hstep.nameStep.shared k hkey).symm.trans hk)
  · intro n t hn
    rw [explicit_of_registerField hr] at hn
    exact Bindings.declares_bind.mpr (Or.inr (h.bound n t hn))

/-- An alias that is accepted stands for a name that is bound. -/
theorem Tells.of_registerAlias (h : r.Tells m) {given target : String} (hgiven : Undotted given)
    (htarget : Undotted target) (hr : r.registerAlias table given target = .ok r') :
    ∃ column, m table target = some column ∧ r'.Tells (m.bind table given column) ∧
      ∀ c, r'.Indexes c ↔ r.Indexes c := by
  obtain ⟨column, howner, hbinds⟩ := binds_of_registerAlias hr
  have hbound := howner
  rw [h.holds.qualified table target htarget] at hbound
  have hcolumn := h.holds.own table target column hbound
  have hrenames := renames_of_registerAlias (h.holds.tracks hgiven table) hcolumn howner hr
  refine ⟨column, hbound, ⟨?_, ?_, ?_, ?_⟩, ?_⟩
  · exact h.holds.of_binds hgiven hcolumn hbinds
  · exact hcolumn ▸ h.inverts.of_renames h.holds.own (Or.inl hgiven) hrenames
  · rw [hbinds.shared]
    exact h.undotted
  · intro n t hn
    rw [explicit_of_registerAlias hr, SortedMap.get?_insert] at hn
    split at hn
    · next heq => exact Bindings.declares_bind.mpr (Or.inl ⟨(Option.some.inj hn).symm, heq⟩)
    · exact Bindings.declares_bind.mpr (Or.inr (h.bound n t hn))
  · -- the column is in the index already, under the name that the alias stands for
    intro c
    rw [hrenames.indexes]
    constructor
    · rintro (hc | rfl)
      · exact hc
      · exact ((h.inverts c target).mpr (hcolumn.symm ▸ hbound)).indexes
    · exact Or.inl

/-- An alias is accepted exactly if it stands for a name of its table and no other table has its own
name. -/
theorem Tells.registerAlias_eq_ok_iff (h : r.Tells m) {given target : String}
    (hgiven : Undotted given) (htarget : Undotted target) :
    (∃ r', r.registerAlias table given target = .ok r') ↔
      (∃ column, m table target = some column) ∧ ∀ t, m.Declares t given → t = table := by
  have hmirrors := h.holds.bare given hgiven
  constructor
  · rintro ⟨r', hr⟩
    obtain ⟨column, howner, hbinds⟩ := binds_of_registerAlias hr
    rw [h.holds.qualified table target htarget] at howner
    refine ⟨⟨column, howner⟩, ?_⟩
    rintro t ⟨c, hc⟩
    obtain ⟨hgiven', rfl⟩ := (hmirrors.unshared hbinds.unshared t c).mp hc
    exact hbinds.free c hgiven'
  · rintro ⟨⟨column, hbound⟩, halone⟩
    have hunshared : r.shared.get? given = none := by
      cases hshared : r.shared.get? given with
      | none => rfl
      | some tables =>
          obtain ⟨-, -, t, t', hne, ht, ht'⟩ := hmirrors.shared tables hshared
          exact absurd ((halone t ht).trans (halone t' ht').symm) hne
    have hrival : r.aliasRival? table given = none := by
      have hshared : aliasRival?.sharedRival r table given = none := by
        unfold aliasRival?.sharedRival
        rw [hunshared]
        cases howner : r.owners.get? given with
        | none => rfl
        | some existing =>
            have hmine := (hmirrors.unshared hunshared existing.table existing).mpr ⟨howner, rfl⟩
            simp [halone existing.table ⟨existing, hmine⟩]
      unfold aliasRival?
      split
      · next owner howner => rw [if_pos (halone owner (h.bound given owner howner)), hshared]
      · exact hshared
    unfold registerAlias
    rw [h.holds.qualified table target htarget, hbound]
    dsimp only
    rw [hrival]
    exact ⟨_, rfl⟩

/-! ### Tables -/

theorem registerFields_eq_ok_iff : (∃ r', registerFields table entries r = .ok r') ↔
    ∀ e ∈ entries, ∀ owner, r.explicit.get? e.1 = some owner → owner = table := by
  induction entries generalizing r with
  | nil => simp [registerFields]
  | cons e entries ih =>
      rw [List.forall_mem_cons, ← registerField_eq_ok_iff e.2]
      constructor
      · rintro ⟨r', hr⟩
        obtain ⟨r₁, hfirst, hrest⟩ := bind_eq_ok_iff.mp hr
        refine ⟨⟨r₁, hfirst⟩, ?_⟩
        rw [← explicit_of_registerField hfirst]
        exact ih.mp ⟨r', hrest⟩
      · rintro ⟨⟨r₁, hfirst⟩, hlater⟩
        rw [← explicit_of_registerField hfirst] at hlater
        obtain ⟨r', hrest⟩ := ih.mpr hlater
        exact ⟨r', bind_eq_ok_iff.mpr ⟨r₁, hfirst, hrest⟩⟩

theorem Tells.of_registerFields (h : r.Tells m) (hentries : ∀ e ∈ entries, Undotted e.1)
    (hr : registerFields table entries r = .ok r') :
    r'.Tells (Bindings.bindFields table entries m) ∧ r'.explicit = r.explicit ∧
      ∀ c, r'.Indexes c ↔ r.Indexes c ∨ (c.table = table ∧ ∃ e ∈ entries, e.2 = c.column) := by
  induction entries generalizing r m with
  | nil =>
      obtain rfl : r = r' := by simpa [registerFields] using hr
      exact ⟨h, rfl, by simp⟩
  | cons e entries ih =>
      obtain ⟨field, name⟩ := e
      obtain ⟨r₁, hfirst, hrest⟩ := bind_eq_ok_iff.mp hr
      have hfield : Undotted field := hentries (field, name) List.mem_cons_self
      obtain ⟨htells, hexplicit, hindexes⟩ := ih (h.of_registerField hfield hfirst)
        (fun e he => hentries e (List.mem_cons_of_mem _ he)) hrest
      refine ⟨htells, hexplicit.trans (explicit_of_registerField hfirst), ?_⟩
      intro c
      have hcolumn : c = ⟨table, name⟩ ↔ c.table = table ∧ name = c.column := by
        cases c
        simp [eq_comm]
      rw [hindexes, (renames_of_registerField (h.holds.tracks hfield table) hfirst).indexes, hcolumn]
      simp only [List.mem_cons, exists_eq_or_imp]
      tauto

theorem Tells.registerAliases_eq_ok_iff (h : r.Tells m)
    (hentries : ∀ e ∈ entries, Undotted e.1 ∧ Undotted e.2) :
    (∃ r', registerAliases table entries r = .ok r') ↔
      Bindings.Reaches table entries m ∧ ∀ e ∈ entries, ∀ t, m.Declares t e.1 → t = table := by
  induction entries generalizing r m with
  | nil => simp [registerAliases, Bindings.Reaches]
  | cons e entries ih =>
      obtain ⟨given, target⟩ := e
      obtain ⟨hgiven, htarget⟩ := hentries (given, target) List.mem_cons_self
      have hrest := fun e he => hentries e (List.mem_cons_of_mem _ he)
      -- the name that the table binds now is its own, and changes nothing for later aliases
      have hsame : ∀ column, (∀ e ∈ entries, ∀ t, (m.bind table given column).Declares t e.1 →
          t = table) ↔ ∀ e ∈ entries, ∀ t, m.Declares t e.1 → t = table := by
        intro column
        simp only [Bindings.declares_bind]
        constructor
        · exact fun h e he t ht => h e he t (Or.inr ht)
        · exact fun h e he t ht => ht.elim And.left (h e he t)
      constructor
      · rintro ⟨r', hr⟩
        obtain ⟨r₁, hfirst, hlater⟩ := bind_eq_ok_iff.mp hr
        obtain ⟨-, halone⟩ := (h.registerAlias_eq_ok_iff hgiven htarget).mp ⟨r₁, hfirst⟩
        obtain ⟨column, hbound, htells, -⟩ := h.of_registerAlias hgiven htarget hfirst
        obtain ⟨hreaches, hapart⟩ := (ih htells hrest).mp ⟨r', hlater⟩
        exact ⟨⟨column, hbound, hreaches⟩,
          List.forall_mem_cons.mpr ⟨halone, (hsame column).mp hapart⟩⟩
      · rintro ⟨⟨column, hbound, hreaches⟩, hapart⟩
        obtain ⟨halone, hapart⟩ := List.forall_mem_cons.mp hapart
        obtain ⟨r₁, hfirst⟩ :=
          (h.registerAlias_eq_ok_iff hgiven htarget).mpr ⟨⟨column, hbound⟩, halone⟩
        obtain ⟨column', hbound', htells, -⟩ := h.of_registerAlias hgiven htarget hfirst
        obtain rfl := Option.some.inj (hbound.symm.trans hbound')
        obtain ⟨r', hlater⟩ := (ih htells hrest).mpr ⟨hreaches, (hsame column).mpr hapart⟩
        exact ⟨r', bind_eq_ok_iff.mpr ⟨r₁, hfirst, hlater⟩⟩

theorem Tells.of_registerAliases (h : r.Tells m)
    (hentries : ∀ e ∈ entries, Undotted e.1 ∧ Undotted e.2)
    (hr : registerAliases table entries r = .ok r') :
    r'.Tells (Bindings.bindAliases table entries m) ∧ (∀ c, r'.Indexes c ↔ r.Indexes c) ∧
      ∀ n t, r'.explicit.get? n = some t ↔
        (n ∈ entries.map Prod.fst ∧ t = table) ∨
          (n ∉ entries.map Prod.fst ∧ r.explicit.get? n = some t) := by
  induction entries generalizing r m with
  | nil =>
      obtain rfl : r = r' := by simpa [registerAliases] using hr
      exact ⟨h, fun _ => Iff.rfl, by simp⟩
  | cons e entries ih =>
      obtain ⟨given, target⟩ := e
      obtain ⟨hgiven, htarget⟩ := hentries (given, target) List.mem_cons_self
      obtain ⟨r₁, hfirst, hrest⟩ := bind_eq_ok_iff.mp hr
      obtain ⟨column, hbound, htells, hindexes⟩ := h.of_registerAlias hgiven htarget hfirst
      obtain ⟨htells', hindexes', hexplicit⟩ :=
        ih htells (fun e he => hentries e (List.mem_cons_of_mem _ he)) hrest
      refine ⟨?_, fun c => (hindexes' c).trans (hindexes c), ?_⟩
      · simpa only [Bindings.bindAliases, hbound] using htells'
      · intro n t
        rw [hexplicit, explicit_of_registerAlias hfirst, SortedMap.get?_insert, List.map_cons,
          List.mem_cons]
        by_cases hn : n = given
        · simp only [hn, if_true, Option.some.injEq, eq_comm (a := table)]
          tauto
        · simp only [hn, if_false, false_or]

end AliasRegistry

end CriteriaQuery
