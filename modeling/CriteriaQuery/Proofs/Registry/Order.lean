import CriteriaQuery.Proofs.Registry.Acceptance

/-!
# The order of tables

Tables that come once each may be registered in any order: either all of them are accepted in every
order, and the registry is the same, or in no order.

## Implementation notes

Whether the tables are accepted and what the registry holds are said of the tables without their
order. No two registries hold the same, so nothing needs to be known of how one order is turned into
another. The names that aliases stand for hold no point either: one that does may be a name of
another table, and then that table has to come first.
-/

namespace CriteriaQuery

namespace Registration

/-- The aliases of a table stand for names that the table has when it comes to them. -/
def Settled (g : Registration) : Prop := Bindings.Admits (fun _ _ => none) g

/-- No alias of one of two tables is a name of the other. -/
def Compatible (g g' : Registration) : Prop :=
  (∀ n ∈ g.aliases.keys, n ∉ g'.names) ∧ ∀ n ∈ g'.aliases.keys, n ∉ g.names

theorem Compatible.symm {g g' : Registration} (h : g.Compatible g') : g'.Compatible g :=
  And.symm h

theorem compatible_iff {a g : Registration} : a.Compatible g ↔
    (∀ n ∈ g.fields.keys, n ∉ a.aliases.keys) ∧ ∀ n ∈ g.aliases.keys, n ∉ a.names := by
  constructor
  · rintro ⟨ha, hg⟩
    exact ⟨fun n hn halias => ha n halias (List.mem_append_left _ hn), hg⟩
  · rintro ⟨hfields, haliases⟩
    refine ⟨fun n halias hn => ?_, haliases⟩
    rcases List.mem_append.mp hn with hn | hn
    · exact hfields n hn halias
    · exact haliases n hn (List.mem_append_right _ halias)

/-- Whether tables are accepted, one with another. -/
structure Accepted (gs : List Registration) : Prop where
  settled : ∀ g ∈ gs, g.Settled
  compatible : gs.Pairwise Compatible

theorem accepted_concat_iff {gs : List Registration} {g : Registration} :
    Accepted (gs ++ [g]) ↔ Accepted gs ∧ g.Settled ∧ ∀ a ∈ gs, a.Compatible g := by
  constructor
  · rintro ⟨hsettled, hcompatible⟩
    obtain ⟨hpairs, -, hlast⟩ := List.pairwise_append.mp hcompatible
    exact ⟨⟨fun a ha => hsettled a (List.mem_append_left _ ha), hpairs⟩,
      hsettled g (List.mem_append_right _ (List.mem_singleton_self g)),
      fun a ha => hlast a ha g (List.mem_singleton_self g)⟩
  · rintro ⟨⟨hsettled, hpairs⟩, hg, hlast⟩
    refine ⟨?_, List.pairwise_append.mpr ⟨hpairs, List.pairwise_singleton _ _, ?_⟩⟩
    · simpa [or_imp, forall_and] using And.intro hsettled hg
    · simpa using hlast

theorem Accepted.perm {gs gs' : List Registration} (h : Accepted gs) (hperm : gs.Perm gs') :
    Accepted gs' where
  settled g hg := h.settled g (hperm.mem_iff.mpr hg)
  compatible := (hperm.pairwise_iff Compatible.symm).mp h.compatible

end Registration

namespace AliasRegistry

variable {r r' : AliasRegistry} {gs : List Registration} {g : Registration} {m : Bindings}

/-! ### What is held of tables -/

/-- What a registry holds of the tables that it was made from. -/
structure Describes (r : AliasRegistry) (gs : List Registration) : Prop where
  tells : r.Tells (Bindings.ofAll gs)
  declares : ∀ t n, (Bindings.ofAll gs).Declares t n ↔ ∃ g ∈ gs, g.table = t ∧ n ∈ g.names
  explicit : ∀ n t, r.explicit.get? n = some t ↔ ∃ g ∈ gs, g.table = t ∧ n ∈ g.aliases.keys
  indexes : ∀ c, r.Indexes c ↔
    ∃ g ∈ gs, g.table = c.table ∧ ∃ e ∈ g.fields.entries, e.2 = c.column

theorem describes_empty : (∅ : AliasRegistry).Describes [] where
  tells := tells_empty
  declares := by simp [Bindings.ofAll, Bindings.Declares]
  explicit n t := by
    have hnone : (∅ : AliasRegistry).explicit.get? n = none := rfl
    simp [hnone]
  indexes c := by
    have hnone : (∅ : AliasRegistry).aliases.get? c = none := rfl
    simp [Indexes, hnone]

/-- To have no name with tables other than its own is, for a new table, to have none with tables
that are there. -/
theorem forall_table_eq_iff (hnew : g.table ∉ gs.map (·.table)) (names : Registration → List String)
    (entries : List (String × String)) :
    (∀ e ∈ entries, ∀ t, (∃ a ∈ gs, a.table = t ∧ e.1 ∈ names a) → t = g.table) ↔
      ∀ a ∈ gs, ∀ n ∈ entries.map Prod.fst, n ∉ names a := by
  constructor
  · intro h a ha n hn hname
    obtain ⟨e, he, rfl⟩ := List.mem_map.mp hn
    exact hnew (List.mem_map.mpr ⟨a, ha, h e he a.table ⟨a, ha, rfl, hname⟩⟩)
  · rintro h e he t ⟨a, ha, -, hname⟩
    exact absurd hname (h a ha e.1 (List.mem_map_of_mem he))

/-- The fields of a new table are accepted if no table that is there has one of them as an alias. -/
theorem Describes.registerFields_eq_ok_iff (h : r.Describes gs)
    (hnew : g.table ∉ gs.map (·.table)) :
    (∃ r₁, registerFields g.table g.fields.entries r = .ok r₁) ↔
      ∀ a ∈ gs, ∀ n ∈ g.fields.keys, n ∉ a.aliases.keys := by
  rw [AliasRegistry.registerFields_eq_ok_iff]
  simp only [h.explicit]
  exact forall_table_eq_iff hnew (fun a => a.aliases.keys) _

/-- Its aliases are accepted after them if it is settled, and if they are no names of tables that
are there. -/
theorem Describes.registerAliases_eq_ok_iff (h : r.Describes gs) (hg : g.Undotted)
    (hnew : g.table ∉ gs.map (·.table)) {r₁ : AliasRegistry}
    (hfields : registerFields g.table g.fields.entries r = .ok r₁) :
    (∃ r', registerAliases g.table g.aliases.entries r₁ = .ok r') ↔
      g.Settled ∧ ∀ a ∈ gs, ∀ n ∈ g.aliases.keys, n ∉ a.names := by
  obtain ⟨htells, -, -⟩ := h.tells.of_registerFields hg.fields hfields
  have hadmits : Bindings.Reaches g.table g.aliases.entries
      (Bindings.bindFields g.table g.fields.entries (Bindings.ofAll gs)) ↔ g.Settled :=
    (Bindings.agreeOn_ofAll hnew).admits_iff
  rw [htells.registerAliases_eq_ok_iff hg.aliases, hadmits, SortedMap.keys,
    ← forall_table_eq_iff hnew Registration.names]
  apply and_congr_right'
  simp only [Bindings.declares_bindFields, h.declares]
  constructor
  · exact fun h e he t ht => h e he t (Or.inl ht)
  · exact fun h e he t ht => ht.elim (h e he t) And.left

/-- A new table is accepted exactly if it is settled and compatible with all that are there. -/
theorem Describes.register_eq_ok_iff (h : r.Describes gs) (hg : g.Undotted)
    (hnew : g.table ∉ gs.map (·.table)) :
    (∃ r', r.register g.table g.fields g.aliases = .ok r') ↔
      g.Settled ∧ ∀ a ∈ gs, a.Compatible g := by
  simp only [Registration.compatible_iff]
  constructor
  · rintro ⟨r', hr⟩
    obtain ⟨r₁, hfields, haliases⟩ := bind_eq_ok_iff.mp hr
    have hapart := (h.registerFields_eq_ok_iff hnew).mp ⟨r₁, hfields⟩
    obtain ⟨hsettled, hapart'⟩ := (h.registerAliases_eq_ok_iff hg hnew hfields).mp ⟨r', haliases⟩
    exact ⟨hsettled, fun a ha => ⟨hapart a ha, hapart' a ha⟩⟩
  · rintro ⟨hsettled, hcompatible⟩
    obtain ⟨r₁, hfields⟩ := (h.registerFields_eq_ok_iff hnew).mpr fun a ha => (hcompatible a ha).1
    obtain ⟨r', haliases⟩ := (h.registerAliases_eq_ok_iff hg hnew hfields).mpr
      ⟨hsettled, fun a ha => (hcompatible a ha).2⟩
    exact ⟨r', bind_eq_ok_iff.mpr ⟨r₁, hfields, haliases⟩⟩

theorem Describes.of_register (h : r.Describes gs) (hg : g.Undotted)
    (hnew : g.table ∉ gs.map (·.table)) (hr : r.register g.table g.fields g.aliases = .ok r') :
    r'.Describes (gs ++ [g]) := by
  obtain ⟨hsettled, hcompatible⟩ := (h.register_eq_ok_iff hg hnew).mp ⟨r', hr⟩
  have hadmits : (Bindings.ofAll gs).Admits g :=
    (Bindings.agreeOn_ofAll hnew).admits_iff.mpr hsettled
  obtain ⟨r₁, hfields, haliases⟩ := bind_eq_ok_iff.mp hr
  obtain ⟨htells, hexplicit, hindexes⟩ := h.tells.of_registerFields hg.fields hfields
  obtain ⟨htells', hindexes', hexplicit'⟩ := htells.of_registerAliases hg.aliases haliases
  constructor
  · rw [Bindings.ofAll_concat]
    exact htells'
  · intro t n
    rw [Bindings.ofAll_concat, hadmits.declares_after, h.declares]
    simp only [List.mem_append, List.mem_singleton, or_and_right, exists_or, exists_eq_left,
      eq_comm (a := t)]
  · intro n t
    have hapart : n ∈ g.aliases.keys → ∀ a ∈ gs, n ∉ a.aliases.keys := fun hn a ha halias =>
      (hcompatible a ha).2 n hn (List.mem_append_right _ halias)
    rw [hexplicit', hexplicit, h.explicit]
    simp only [List.mem_append, List.mem_singleton, or_and_right, exists_or, exists_eq_left,
      eq_comm (a := t)]
    constructor
    · rintro (⟨hn, rfl⟩ | ⟨-, hbefore⟩)
      · exact Or.inr ⟨rfl, hn⟩
      · exact Or.inl hbefore
    · rintro (⟨a, ha, htable, halias⟩ | ⟨htable, hn⟩)
      · exact Or.inr ⟨fun hn => hapart hn a ha halias, a, ha, htable, halias⟩
      · exact Or.inl ⟨hn, htable⟩
  · intro c
    rw [hindexes', hindexes, h.indexes]
    simp only [List.mem_append, List.mem_singleton, or_and_right, exists_or, exists_eq_left,
      eq_comm (a := c.table)]

/-! ### Runs -/

theorem registered_nil_iff : Registered [] r ↔ r = ∅ := by
  constructor
  · intro h
    generalize hall : ([] : List Registration) = all at h
    cases h with
    | start => rfl
    | next => simp at hall
  · rintro rfl
    exact .start

theorem registered_concat_iff : Registered (gs ++ [g]) r' ↔
    ∃ r, Registered gs r ∧ r.register g.table g.fields g.aliases = .ok r' := by
  constructor
  · intro h
    generalize hall : gs ++ [g] = all at h
    cases h with
    | start => simp at hall
    | next h hr =>
        obtain ⟨rfl, hlast⟩ := List.append_inj' hall rfl
        obtain rfl := List.singleton_inj.mp hlast
        exact ⟨_, h, hr⟩
  · rintro ⟨r, h, hr⟩
    exact h.next hr

/-- Tables that come once each are all registered exactly if they are accepted, and what the
registry holds is known from them. -/
theorem registered_iff_accepted (hnodup : (gs.map (·.table)).Nodup)
    (hundotted : ∀ g ∈ gs, g.Undotted) :
    ((∃ r, Registered gs r) ↔ Registration.Accepted gs) ∧
      ∀ r, Registered gs r → r.Describes gs := by
  induction gs using List.reverseRecOn with
  | nil =>
      refine ⟨iff_of_true ⟨∅, .start⟩ ⟨by simp, List.Pairwise.nil⟩, ?_⟩
      intro r h
      rw [registered_nil_iff.mp h]
      exact describes_empty
  | append_singleton gs g ih =>
      rw [List.map_append, List.nodup_append] at hnodup
      obtain ⟨hnodup, -, hnew⟩ := hnodup
      have hnew : g.table ∉ gs.map (·.table) := fun hmem =>
        hnew g.table hmem g.table (by simp) rfl
      have hg : g.Undotted := hundotted g (by simp)
      obtain ⟨hiff, hdescribes⟩ := ih hnodup fun a ha => hundotted a (List.mem_append_left _ ha)
      constructor
      · rw [Registration.accepted_concat_iff, ← hiff]
        constructor
        · rintro ⟨r', h⟩
          obtain ⟨r, h, hr⟩ := registered_concat_iff.mp h
          exact ⟨⟨r, h⟩, ((hdescribes r h).register_eq_ok_iff hg hnew).mp ⟨r', hr⟩⟩
        · rintro ⟨⟨r, h⟩, hlast⟩
          obtain ⟨r', hr⟩ := ((hdescribes r h).register_eq_ok_iff hg hnew).mpr hlast
          exact ⟨r', h.next hr⟩
      · intro r' h
        obtain ⟨r, h, hr⟩ := registered_concat_iff.mp h
        exact (hdescribes r h).of_register hg hnew hr

/-! ### Registries that hold the same -/

theorem Mirrors.eq {n : String} (h : r.Mirrors m n) (h' : r'.Mirrors m n) :
    r.owners.get? n = r'.owners.get? n ∧ r.shared.get? n = r'.shared.get? n := by
  cases hshared : r.shared.get? n with
  | some tables =>
      obtain ⟨hnone, hmembers, hseveral⟩ := h.shared tables hshared
      obtain ⟨tables', hshared'⟩ := h'.exists_shared_of_several hseveral
      obtain ⟨hnone', hmembers', -⟩ := h'.shared tables' hshared'
      refine ⟨hnone.trans hnone'.symm, ?_⟩
      rw [hshared', SortedSet.ext_contains fun t => (hmembers t).trans (hmembers' t).symm]
  | none =>
      have hshared' : r'.shared.get? n = none := by
        cases hshared' : r'.shared.get? n with
        | none => rfl
        | some tables' =>
            obtain ⟨-, -, hseveral⟩ := h'.shared tables' hshared'
            obtain ⟨tables, htables⟩ := h.exists_shared_of_several hseveral
            simp [hshared] at htables
      refine ⟨?_, hshared'.symm⟩
      apply Option.ext
      intro c
      have hbound := h.unshared hshared c.table c
      have hbound' := h'.unshared hshared' c.table c
      simp only [and_true] at hbound hbound'
      rw [← hbound, hbound']

/-- A registry is known from the bindings that it tells of, the names that are explicit and the
columns that are indexed. -/
theorem Tells.eq (h : r.Tells m) (h' : r'.Tells m)
    (hexplicit : ∀ n t, r.explicit.get? n = some t ↔ r'.explicit.get? n = some t)
    (hindexes : ∀ c, r.Indexes c ↔ r'.Indexes c) : r = r' := by
  have hlookup : ∀ k, r.owners.get? k = r'.owners.get? k ∧ r.shared.get? k = r'.shared.get? k := by
    intro k
    by_cases hk : Undotted k
    · exact (h.holds.bare k hk).eq (h'.holds.bare k hk)
    · have hunshared : ∀ {r : AliasRegistry}, r.Tells m → r.shared.get? k = none := by
        intro r h
        cases hshared : r.shared.get? k with
        | none => rfl
        | some tables => exact absurd (h.undotted k tables hshared) hk
      obtain ⟨t, n, hn, rfl⟩ := exists_eq_qualify hk
      rw [h.holds.qualified t n hn, h'.holds.qualified t n hn, hunshared h, hunshared h']
      exact ⟨rfl, rfl⟩
  have howners : r.owners = r'.owners := SortedMap.ext_get? fun k => (hlookup k).1
  have hshared : r.shared = r'.shared := SortedMap.ext_get? fun k => (hlookup k).2
  have hsame : r.explicit = r'.explicit :=
    SortedMap.ext_get? fun n => Option.ext fun t => hexplicit n t
  have haliases : r.aliases = r'.aliases :=
    aliases_eq hindexes fun c n => (h.inverts c n).trans (h'.inverts c n).symm
  cases r
  cases r'
  congr

/-- Tables that come once each are registered in every order or in none, to the same registry. -/
theorem Registered.perm (h : Registered gs r) {gs' : List Registration} (hperm : gs.Perm gs')
    (hnodup : (gs.map (·.table)).Nodup) (hundotted : ∀ g ∈ gs, g.Undotted) : Registered gs' r := by
  have hnodup' : (gs'.map (·.table)).Nodup := (hperm.map _).nodup_iff.mp hnodup
  have hundotted' : ∀ g ∈ gs', g.Undotted := fun g hg => hundotted g (hperm.mem_iff.mpr hg)
  obtain ⟨hiff, hdescribes⟩ := registered_iff_accepted hnodup hundotted
  obtain ⟨hiff', hdescribes'⟩ := registered_iff_accepted hnodup' hundotted'
  obtain ⟨r', h'⟩ := hiff'.mpr ((hiff.mp ⟨r, h⟩).perm hperm)
  have hd := hdescribes r h
  have hd' := hdescribes' r' h'
  have hsame : r = r' := by
    apply hd.tells.eq
    · rw [Bindings.ofAll_perm hperm hnodup]
      exact hd'.tells
    · intro n t
      simp only [hd.explicit, hd'.explicit, hperm.mem_iff]
    · intro c
      simp only [hd.indexes, hd'.indexes, hperm.mem_iff]
  exact hsame ▸ h'

end AliasRegistry

end CriteriaQuery
