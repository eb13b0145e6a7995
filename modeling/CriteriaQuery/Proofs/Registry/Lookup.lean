import CriteriaQuery.Proofs.Registry.Bindings

/-!
# Looking names up

As long as names hold no point, a registry looks up exactly what registrations have bound. A
qualified name means what its table binds it to. A bare name means something as long as a single
table binds it, and otherwise the tables that bind it are known.

## Implementation notes

The registry is followed name by name. Bare names and qualified names live in one map, but a step
changes what is held of one bare name and of one qualified name only, and the point keeps these
from being one.
-/

namespace CriteriaQuery

namespace SortedSet

variable {κ : Type} [KeyOrder κ]

theorem pairwise_toList (s : SortedSet κ) : s.toList.Pairwise (· < ·) :=
  List.pairwise_map.mpr s.sorted

/-- The first two of several members are the smallest ones. -/
theorem exists_smallest {s : SortedSet κ} {k k' : κ} (hne : k ≠ k')
    (hk : SortedMap.contains s k = true) (hk' : SortedMap.contains s k' = true) :
    ∃ first second rest, s.toList = first :: second :: rest ∧ first < second ∧
      ∀ t, SortedMap.contains s t = true → t = first ∨ t = second ∨ second < t := by
  have hmem := mem_toList_iff.mpr hk
  have hmem' := mem_toList_iff.mpr hk'
  have hsorted := s.pairwise_toList
  match hlist : s.toList with
  | [] => simp [hlist] at hmem
  | [first] =>
      rw [hlist, List.mem_singleton] at hmem hmem'
      exact absurd (hmem.trans hmem'.symm) hne
  | first :: second :: rest =>
      rw [hlist] at hsorted
      obtain ⟨hfirst, hrest⟩ := List.pairwise_cons.mp hsorted
      refine ⟨first, second, rest, rfl, hfirst second List.mem_cons_self, ?_⟩
      intro t ht
      have htmem := mem_toList_iff.mpr ht
      rw [hlist] at htmem
      rcases List.mem_cons.mp htmem with rfl | htmem
      · exact Or.inl rfl
      · rcases List.mem_cons.mp htmem with rfl | htmem
        · exact Or.inr (Or.inl rfl)
        · exact Or.inr (Or.inr ((List.pairwise_cons.mp hrest).1 t htmem))

end SortedSet

namespace AliasRegistry

/-- What a registry holds of a bare name: the column, if a single table binds it, or else all
tables that do. -/
structure Mirrors (r : AliasRegistry) (m : Bindings) (name : String) : Prop where
  shared : ∀ tables, r.shared.get? name = some tables → r.owners.get? name = none ∧
    (∀ t, SortedMap.contains tables t = true ↔ m.Declares t name) ∧
    ∃ t t', t ≠ t' ∧ m.Declares t name ∧ m.Declares t' name
  unshared : r.shared.get? name = none → ∀ t column,
    m t name = some column ↔ r.owners.get? name = some column ∧ column.table = t

/-- A registry holds what is bound. -/
structure Holds (r : AliasRegistry) (m : Bindings) : Prop where
  /-- A table binds names to its own columns. -/
  own : ∀ t n column, m t n = some column → column.table = t
  qualified : ∀ t n, Undotted n → r.owners.get? (ColumnRef.qualify t n) = m t n
  bare : ∀ n, Undotted n → r.Mirrors m n

theorem holds_empty : (∅ : AliasRegistry).Holds fun _ _ => none where
  own := by simp
  qualified := fun _ _ _ => rfl
  bare := by
    intro n _
    refine ⟨?_, ?_⟩
    · intro tables h
      exact absurd h (by simp [EmptyCollection.emptyCollection, empty])
    · intro _ t column
      simp [EmptyCollection.emptyCollection, empty]

variable {r r' : AliasRegistry} {m : Bindings}

/-- A name of which nothing changes is held as before. -/
theorem Mirrors.congr {m' : Bindings} {name : String} (h : r.Mirrors m name)
    (howners : r'.owners.get? name = r.owners.get? name)
    (hshared : r'.shared.get? name = r.shared.get? name) (hm : ∀ t, m' t name = m t name) :
    r'.Mirrors m' name where
  shared := by
    have hdeclares : ∀ t, m'.Declares t name ↔ m.Declares t name := by
      intro t
      rw [Bindings.Declares, Bindings.Declares, hm]
    intro tables htables
    obtain ⟨hnone, hmembers, hseveral⟩ := h.shared tables (hshared ▸ htables)
    refine ⟨howners ▸ hnone, ?_, ?_⟩
    · intro t
      rw [hmembers, hdeclares]
    · simpa only [hdeclares] using hseveral
  unshared := by
    intro hnone t column
    rw [hm, howners]
    exact h.unshared (hshared ▸ hnone) t column

/-- A step that binds one name of a table keeps what is held of all other names. -/
theorem Holds.of_bind {name : String} {column : ColumnRef} (h : r.Holds m) (hname : Undotted name)
    (howners : ∀ k, k ≠ name → r'.owners.get? k =
      if k = ColumnRef.qualify column.table name then some column else r.owners.get? k)
    (hshared : ∀ k, k ≠ name → r'.shared.get? k = r.shared.get? k)
    (hmirrors : r'.Mirrors (m.bind column.table name column) name) :
    r'.Holds (m.bind column.table name column) where
  own := by
    intro t n c hc
    unfold Bindings.bind at hc
    split at hc
    · next heq =>
        obtain rfl := Option.some.inj hc
        exact heq.1.symm
    · exact h.own t n c hc
  qualified := by
    intro t n hn
    rw [howners _ (ColumnRef.ne_qualify hname t n).symm, h.qualified t n hn]
    simp only [ColumnRef.qualify_inj hn hname, Bindings.bind]
  bare := by
    intro n hn
    by_cases heq : n = name
    · rw [heq]
      exact hmirrors
    · apply (h.bare n hn).congr
      · rw [howners n heq, if_neg (ColumnRef.ne_qualify hn _ _)]
      · exact hshared n heq
      · intro t
        simp [Bindings.bind, heq]

/-- A name that nobody else has is bound. -/
theorem Holds.of_binds {table name : String} {column : ColumnRef} (h : r.Holds m)
    (hname : Undotted name) (hcolumn : column.table = table) (hstep : Binds r r' table name column) :
    r'.Holds (m.bind table name column) := by
  subst hcolumn
  apply h.of_bind hname
  · intro k hk
    rw [hstep.owners]
    simp [hk]
  · intro k _
    rw [hstep.shared]
  · have hbare := (h.bare name hname).unshared hstep.unshared
    refine ⟨?_, ?_⟩
    · intro tables htables
      rw [hstep.shared, hstep.unshared] at htables
      simp at htables
    · intro _ t c
      have howner : r'.owners.get? name = some column := by
        rw [hstep.owners]
        simp [ColumnRef.ne_qualify hname]
      rw [howner, Bindings.bind]
      by_cases ht : t = column.table
      · subst ht
        simp only [and_self, if_true, Option.some.injEq]
        constructor
        · rintro rfl
          exact ⟨rfl, rfl⟩
        · rintro ⟨rfl, -⟩
          rfl
      · rw [if_neg (fun hboth => ht hboth.1), hbare]
        constructor
        · rintro ⟨howned, rfl⟩
          exact absurd (hstep.free c howned) ht
        · rintro ⟨hsame, rfl⟩
          obtain rfl := Option.some.inj hsame
          exact absurd rfl ht

/-- A name that becomes shared is held with the tables that share it. -/
theorem mirrors_of_shared {name : String} {column : ColumnRef} {tables : SortedSet String}
    (hshared : r'.shared.get? name = some tables) (hnone : r'.owners.get? name = none)
    (hmembers : ∀ t, SortedMap.contains tables t = true ↔
      t = column.table ∨ m.Declares t name)
    (hother : ∃ t, t ≠ column.table ∧ m.Declares t name) :
    r'.Mirrors (m.bind column.table name column) name where
  shared := by
    intro tables' htables'
    obtain rfl : tables = tables' := by simpa [hshared] using htables'
    obtain ⟨t, ht, hdeclares⟩ := hother
    refine ⟨hnone, ?_, t, column.table, ht, ?_, ?_⟩
    · intro t
      rw [hmembers, Bindings.declares_bind]
      simp
    · exact Bindings.declares_bind.mpr (Or.inr hdeclares)
    · exact Bindings.declares_bind.mpr (Or.inl ⟨rfl, rfl⟩)
  unshared := by
    intro hunshared
    simp [hshared] at hunshared

theorem Holds.of_fieldStep {field : String} {column : ColumnRef} (h : r.Holds m)
    (hfield : Undotted field) (hstep : FieldStep r r' field column) :
    r'.Holds (m.bind column.table field column) := by
  have hbare := h.bare field hfield
  have hne := ColumnRef.ne_qualify hfield
  cases hstep with
  | binds hstep => exact h.of_binds hfield rfl hstep
  | divides existing unshared taken other owners shared =>
      have hdeclares : ∀ t, m.Declares t field ↔ t = existing.table := by
        intro t
        unfold Bindings.Declares
        simp only [hbare.unshared unshared t, taken, Option.some.injEq]
        constructor
        · rintro ⟨c, rfl, rfl⟩
          rfl
        · rintro rfl
          exact ⟨existing, rfl, rfl⟩
      apply h.of_bind hfield
      · intro k hk
        rw [owners]
        simp [hk]
      · intro k hk
        rw [shared]
        simp [hk]
      · apply mirrors_of_shared
        · rw [shared, SortedMap.get?_insert, if_pos rfl]
        · rw [owners]
          simp [hne]
        · intro t
          have hempty : SortedMap.contains (SortedMap.empty : SortedSet String) t = false := rfl
          rw [hdeclares]
          simp [SortedSet.ofList, SortedSet.contains_add, hempty]
        · exact ⟨existing.table, other, (hdeclares _).mpr rfl⟩
  | joins tables already owners shared =>
      obtain ⟨hnone, hmembers, t, t', hdiff, ht, ht'⟩ := hbare.shared tables already
      apply h.of_bind hfield
      · intro k _
        rw [owners, SortedMap.get?_insert]
      · intro k hk
        rw [shared]
        simp [hk]
      · apply mirrors_of_shared
        · rw [shared, SortedMap.get?_insert, if_pos rfl]
        · rw [owners]
          simp [hne, hnone]
        · intro t
          rw [SortedSet.contains_add, Bool.or_eq_true, decide_eq_true_eq, hmembers]
        · by_cases hcase : t = column.table
          · exact ⟨t', fun hcontra => hdiff (hcase.trans hcontra.symm), ht'⟩
          · exact ⟨t, hcase, ht⟩

/-! ### Runs -/

theorem Holds.of_registerFields {table : String} {entries : List (String × String)}
    (h : r.Holds m) (hentries : ∀ e ∈ entries, Undotted e.1)
    (hr : registerFields table entries r = .ok r') : r'.Holds (m.bindFields table entries) := by
  induction entries generalizing r m with
  | nil =>
      obtain rfl : r = r' := by simpa [registerFields] using hr
      exact h
  | cons e entries ih =>
      obtain ⟨field, name⟩ := e
      obtain ⟨r₁, hfirst, hrest⟩ := bind_eq_ok_iff.mp hr
      have hfield : Undotted field := hentries (field, name) List.mem_cons_self
      have hstep := h.of_fieldStep hfield (fieldStep_of_registerField hfirst)
      exact ih hstep (fun e he => hentries e (List.mem_cons_of_mem _ he)) hrest

theorem Holds.of_registerAliases {table : String} {entries : List (String × String)}
    (h : r.Holds m) (hentries : ∀ e ∈ entries, Undotted e.1 ∧ Undotted e.2)
    (hr : registerAliases table entries r = .ok r') : r'.Holds (m.bindAliases table entries) := by
  induction entries generalizing r m with
  | nil =>
      obtain rfl : r = r' := by simpa [registerAliases] using hr
      exact h
  | cons e entries ih =>
      obtain ⟨given, target⟩ := e
      obtain ⟨r₁, hfirst, hrest⟩ := bind_eq_ok_iff.mp hr
      obtain ⟨hgiven, htarget⟩ := hentries (given, target) List.mem_cons_self
      obtain ⟨column, howner, hbinds⟩ := binds_of_registerAlias hfirst
      rw [h.qualified table target htarget] at howner
      have hstep := h.of_binds hgiven (h.own table target column howner) hbinds
      have hmore := ih hstep (fun e he => hentries e (List.mem_cons_of_mem _ he)) hrest
      simpa only [Bindings.bindAliases, howner] using hmore

theorem Holds.of_register {g : Registration} (h : r.Holds m) (hg : g.Undotted)
    (hr : r.register g.table g.fields g.aliases = .ok r') : r'.Holds (m.after g) := by
  obtain ⟨r₁, hfields, haliases⟩ := bind_eq_ok_iff.mp hr
  exact (h.of_registerFields hg.fields hfields).of_registerAliases hg.aliases haliases

theorem holds_of_registered {gs : List Registration} (h : Registered gs r)
    (hgs : ∀ g ∈ gs, g.Undotted) : r.Holds (Bindings.ofAll gs) := by
  induction h with
  | start => exact holds_empty
  | @next gs g r r' _ hr ih =>
      have hbefore := ih fun g' hg' => hgs g' (List.mem_append_left _ hg')
      have hg : g.Undotted := hgs g (List.mem_append_right _ (List.mem_singleton_self g))
      rw [Bindings.ofAll, List.foldl_append]
      exact hbefore.of_register hg hr

/-! ### Looking up -/

namespace Mirrors

variable {name : String}

theorem resolve_eq_ok_iff (h : r.Mirrors m name) (column : ColumnRef) :
    r.resolve name = .ok column ↔
      ∃ t, m t name = some column ∧ ∀ t', m.Declares t' name → t' = t := by
  rw [AliasRegistry.resolve_eq_ok_iff]
  cases hshared : r.shared.get? name with
  | some tables =>
      obtain ⟨hnone, -, t, t', hne, ht, ht'⟩ := h.shared tables hshared
      rw [hnone]
      constructor
      · simp
      · rintro ⟨t₀, -, honly⟩
        exact absurd ((honly t ht).trans (honly t' ht').symm) hne
  | none =>
      have hbound := h.unshared hshared
      constructor
      · intro howner
        refine ⟨column.table, (hbound _ _).mpr ⟨howner, rfl⟩, ?_⟩
        rintro t' ⟨c, hc⟩
        obtain ⟨howner', rfl⟩ := (hbound _ _).mp hc
        rw [Option.some.inj (howner'.symm.trans howner)]
      · rintro ⟨t, ht, -⟩
        exact ((hbound _ _).mp ht).1

/-- A shared name is reported with the two smallest tables that share it. -/
theorem resolve_of_shared (h : r.Mirrors m name) {tables : SortedSet String}
    (hshared : r.shared.get? name = some tables) :
    ∃ first second, r.resolve name = .error (.ambiguousAlias name first second) ∧
      m.Smallest name first second := by
  obtain ⟨hnone, hmembers, t, t', hne, ht, ht'⟩ := h.shared tables hshared
  obtain ⟨first, second, rest, hlist, hlt, hothers⟩ :=
    SortedSet.exists_smallest hne ((hmembers t).mpr ht) ((hmembers t').mpr ht')
  refine ⟨first, second, ?_, ?_, ?_, hlt, ?_⟩
  · simp [resolve, hnone, hshared, hlist]
  · apply (hmembers first).mp
    exact SortedSet.mem_toList_iff.mp (by simp [hlist])
  · apply (hmembers second).mp
    exact SortedSet.mem_toList_iff.mp (by simp [hlist])
  · intro table htable
    exact hothers table ((hmembers table).mpr htable)

theorem resolve_eq_unresolved_iff (h : r.Mirrors m name) :
    r.resolve name = .error (.unresolvedField name) ↔ ∀ t, ¬ m.Declares t name := by
  cases hshared : r.shared.get? name with
  | some tables =>
      obtain ⟨first, second, hresolve, hsmallest⟩ := h.resolve_of_shared hshared
      rw [hresolve]
      constructor
      · simp
      · intro hnobody
        exact absurd hsmallest.declares_first (hnobody first)
  | none =>
      have hbound := h.unshared hshared
      cases howner : r.owners.get? name with
      | some column =>
          constructor
          · simp [resolve, howner]
          · intro hnobody
            exact absurd ⟨column, (hbound _ _).mpr ⟨howner, rfl⟩⟩ (hnobody column.table)
      | none =>
          constructor
          · rintro - t ⟨c, hc⟩
            simpa [howner] using (hbound t c).mp hc
          · intro _
            simp [resolve, howner, hshared]

theorem exists_shared_of_several (h : r.Mirrors m name)
    (hseveral : ∃ t t', t ≠ t' ∧ m.Declares t name ∧ m.Declares t' name) :
    ∃ tables, r.shared.get? name = some tables := by
  obtain ⟨t, t', hne, ⟨c, hc⟩, ⟨c', hc'⟩⟩ := hseveral
  cases hshared : r.shared.get? name with
  | some tables => exact ⟨tables, rfl⟩
  | none =>
      obtain ⟨howner, rfl⟩ := (h.unshared hshared t c).mp hc
      obtain ⟨howner', rfl⟩ := (h.unshared hshared t' c').mp hc'
      obtain rfl : c = c' := Option.some.inj (howner.symm.trans howner')
      exact absurd rfl hne

theorem resolve_eq_ambiguous_iff (h : r.Mirrors m name) (first second : String) :
    r.resolve name = .error (.ambiguousAlias name first second) ↔
      m.Smallest name first second := by
  constructor
  · intro hresolve
    cases hshared : r.shared.get? name with
    | none => cases howner : r.owners.get? name <;> simp [resolve, hshared, howner] at hresolve
    | some tables =>
        obtain ⟨first', second', hresolve', hsmallest⟩ := h.resolve_of_shared hshared
        rw [hresolve'] at hresolve
        simp only [Except.error.injEq, CatalogError.ambiguousAlias.injEq, true_and] at hresolve
        rw [← hresolve.1, ← hresolve.2]
        exact hsmallest
  · intro hsmallest
    have hne : first ≠ second := by
      rintro rfl
      exact String.lt_irrefl _ hsmallest.ascending
    obtain ⟨tables, hshared⟩ := h.exists_shared_of_several
      ⟨first, second, hne, hsmallest.declares_first, hsmallest.declares_second⟩
    obtain ⟨first', second', hresolve, hsmallest'⟩ := h.resolve_of_shared hshared
    obtain ⟨rfl, rfl⟩ := hsmallest.unique hsmallest'
    exact hresolve

end Mirrors

/-- As long as the names of registrations hold no point, a qualified name means what its table
binds it to. A bare name means what the only table that binds it binds it to; when several tables
do, the two smallest are reported, and when none does, the name is unresolved. -/
theorem resolve_iff_bindings (gs : List Registration) (r : AliasRegistry) (h : Registered gs r)
    (hgs : ∀ g ∈ gs, g.Undotted) :
    (∀ table name column, Undotted name →
      (r.resolve (ColumnRef.qualify table name) = .ok column ↔
        Bindings.ofAll gs table name = some column)) ∧
    ∀ name, Undotted name →
      (∀ column, r.resolve name = .ok column ↔
        ∃ table, Bindings.ofAll gs table name = some column ∧
          ∀ table', (Bindings.ofAll gs).Declares table' name → table' = table) ∧
      (∀ first second, r.resolve name = .error (.ambiguousAlias name first second) ↔
        (Bindings.ofAll gs).Smallest name first second) ∧
      ((∃ first second, r.resolve name = .error (.ambiguousAlias name first second)) ↔
        ∃ table table', table ≠ table' ∧ (Bindings.ofAll gs).Declares table name ∧
          (Bindings.ofAll gs).Declares table' name) ∧
      (r.resolve name = .error (.unresolvedField name) ↔
        ∀ table, ¬ (Bindings.ofAll gs).Declares table name) := by
  have hholds := holds_of_registered h hgs
  constructor
  · intro table name column hname
    rw [AliasRegistry.resolve_eq_ok_iff, hholds.qualified table name hname]
  · intro name hname
    have hmirrors := hholds.bare name hname
    refine ⟨hmirrors.resolve_eq_ok_iff, hmirrors.resolve_eq_ambiguous_iff, ?_,
      hmirrors.resolve_eq_unresolved_iff⟩
    constructor
    · rintro ⟨first, second, hresolve⟩
      have hsmallest := (hmirrors.resolve_eq_ambiguous_iff first second).mp hresolve
      refine ⟨first, second, ?_, hsmallest.declares_first, hsmallest.declares_second⟩
      rintro rfl
      exact String.lt_irrefl _ hsmallest.ascending
    · intro hseveral
      obtain ⟨tables, hshared⟩ := hmirrors.exists_shared_of_several hseveral
      obtain ⟨first, second, hresolve, -⟩ := hmirrors.resolve_of_shared hshared
      exact ⟨first, second, hresolve⟩

/-- A table is registered twice; between the two, another one whose name holds a point and which
shares a field with it. -/
def sharedRegistrations : List Registration := [
  ⟨"a", SortedMap.ofList [("id", "id_a"), ("name", "n")], SortedMap.ofList [("nick", "name")]⟩,
  ⟨"b.c", SortedMap.ofList [("id", "pk")], ∅⟩,
  ⟨"a", SortedMap.ofList [("name", "full_name")], SortedMap.ofList [("nick", "id")]⟩]

theorem resolve_iff_bindings_shared :
    ∃ r, Registered sharedRegistrations r ∧ (∀ g ∈ sharedRegistrations, g.Undotted) ∧
      r.resolve (ColumnRef.qualify "b.c" "id") = .ok ⟨"b.c", "pk"⟩ ∧
      r.resolve (ColumnRef.qualify "a" "nick") = .ok ⟨"a", "id_a"⟩ ∧
      r.resolve "id" = .error (.ambiguousAlias "id" "a" "b.c") := by
  have hundotted : ∀ g ∈ sharedRegistrations, g.Undotted := by
    intro g hg
    simp only [sharedRegistrations, List.mem_cons, List.not_mem_nil, or_false] at hg
    rcases hg with rfl | rfl | rfl <;> exact ⟨by decide, by decide⟩
  have hregistered : ∃ r, Registered sharedRegistrations r :=
    ⟨_, ((Registered.start.next rfl).next rfl).next rfl⟩
  obtain ⟨r, h⟩ := hregistered
  obtain ⟨hqualified, hbare⟩ := resolve_iff_bindings sharedRegistrations r h hundotted
  refine ⟨r, h, hundotted, ?_, ?_, ?_⟩
  · exact (hqualified "b.c" "id" _ (by decide)).mpr rfl
  · exact (hqualified "a" "nick" _ (by decide)).mpr rfl
  · obtain ⟨-, hambiguous, -, -⟩ := hbare "id" (by decide)
    apply (hambiguous "a" "b.c").mpr
    refine ⟨⟨_, rfl⟩, ⟨_, rfl⟩, by decide, ?_⟩
    intro table htable
    have hall : Bindings.ofAll sharedRegistrations =
        (((((Bindings.bind (fun _ _ => none) "a" "id" ⟨"a", "id_a"⟩).bind "a" "name" ⟨"a", "n"⟩).bind
          "a" "nick" ⟨"a", "n"⟩).bind "b.c" "id" ⟨"b.c", "pk"⟩).bind "a" "name"
            ⟨"a", "full_name"⟩).bind "a" "nick" ⟨"a", "id_a"⟩ := rfl
    rw [hall] at htable
    have hnone : ¬ Bindings.Declares (fun _ _ => none) table "id" := by simp [Bindings.Declares]
    simp only [Bindings.declares_bind, hnone, String.reduceEq, and_false, false_or, or_false,
      and_true] at htable
    exact htable.elim (fun h => Or.inr (Or.inl h)) Or.inl

end AliasRegistry

end CriteriaQuery
