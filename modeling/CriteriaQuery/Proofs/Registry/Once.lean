import CriteriaQuery.Proofs.Registry.Columns
import Mathlib.Data.List.Induction
import Mathlib.Data.List.Nodup
import Mathlib.Tactic.Tauto

/-!
# Tables that come once

What a table binds depends on nothing that other tables have bound, so tables that come once each
bind the same in every order: their fields, and their aliases as far as these stand for names that
the table has by then.
-/

namespace CriteriaQuery

namespace Bindings

variable {m m' : Bindings} {table t n : String} {entries : List (String × String)}
  {g : Registration}

/-! ### One table and the others -/

/-- Two bindings agree on the names of a table. -/
def AgreeOn (m m' : Bindings) (table : String) : Prop := ∀ name, m table name = m' table name

theorem agreeOn_bind {name : String} {column : ColumnRef} (hne : t ≠ table) :
    (m.bind table name column).AgreeOn m t := by
  intro n
  simp [bind, hne]

theorem AgreeOn.bind (h : m.AgreeOn m' t) (table name : String) (column : ColumnRef) :
    (m.bind table name column).AgreeOn (m'.bind table name column) t := by
  intro n
  rw [Bindings.bind, Bindings.bind, h n]

theorem agreeOn_bindFields (hne : t ≠ table) : (bindFields table entries m).AgreeOn m t := by
  induction entries generalizing m with
  | nil => exact fun _ => rfl
  | cons e entries ih => exact fun n => (ih n).trans (agreeOn_bind hne n)

theorem AgreeOn.bindFields (h : m.AgreeOn m' t) :
    (bindFields table entries m).AgreeOn (bindFields table entries m') t := by
  induction entries generalizing m m' with
  | nil => exact h
  | cons e entries ih => exact ih (h.bind table e.1 ⟨table, e.2⟩)

theorem agreeOn_bindAliases (hne : t ≠ table) : (bindAliases table entries m).AgreeOn m t := by
  induction entries generalizing m with
  | nil => exact fun _ => rfl
  | cons e entries ih =>
      unfold bindAliases
      cases m table e.2 with
      | some column => exact fun n => (ih n).trans (agreeOn_bind hne n)
      | none => exact ih

theorem AgreeOn.bindAliases (h : m.AgreeOn m' table) :
    (bindAliases table entries m).AgreeOn (bindAliases table entries m') table := by
  induction entries generalizing m m' with
  | nil => exact h
  | cons e entries ih =>
      unfold Bindings.bindAliases
      rw [h e.2]
      cases m' table e.2 with
      | some column => exact ih (h.bind table e.1 column)
      | none => exact ih h

theorem agreeOn_after (hne : t ≠ g.table) : (m.after g).AgreeOn m t :=
  fun n => (agreeOn_bindAliases hne n).trans (agreeOn_bindFields hne n)

/-- What a table binds depends on what it has bound before alone. -/
theorem AgreeOn.after (h : m.AgreeOn m' g.table) : (m.after g).AgreeOn (m'.after g) g.table :=
  h.bindFields.bindAliases

theorem after_comm {a b : Registration} (hne : a.table ≠ b.table) :
    (m.after a).after b = (m.after b).after a := by
  funext t n
  by_cases ha : t = a.table
  · subst ha
    have hback : (m.after b).AgreeOn m a.table := agreeOn_after hne
    exact (agreeOn_after hne n).trans (hback.after n).symm
  · by_cases hb : t = b.table
    · subst hb
      have hback : (m.after a).AgreeOn m b.table := agreeOn_after ha
      exact (hback.after n).trans (agreeOn_after ha n).symm
    · calc
        (m.after a).after b t n = m t n := (agreeOn_after hb n).trans (agreeOn_after ha n)
        _ = (m.after b).after a t n := ((agreeOn_after ha n).trans (agreeOn_after hb n)).symm

/-- The bindings of tables that come once each are the same in every order. -/
theorem ofAll_perm {gs gs' : List Registration} (hperm : gs.Perm gs')
    (hnodup : (gs.map (·.table)).Nodup) : ofAll gs = ofAll gs' := by
  apply hperm.foldl_eq'
  intro a ha b hb m
  by_cases htable : a.table = b.table
  · rw [List.inj_on_of_nodup_map hnodup ha hb htable]
  · exact after_comm htable

theorem ofAll_concat (gs : List Registration) (g : Registration) :
    ofAll (gs ++ [g]) = (ofAll gs).after g := by
  rw [ofAll, List.foldl_append]
  rfl

/-- A table that is new has bound nothing. -/
theorem agreeOn_ofAll {gs : List Registration} (hnew : t ∉ gs.map (·.table)) :
    (ofAll gs).AgreeOn (fun _ _ => none) t := by
  induction gs using List.reverseRecOn with
  | nil => exact fun _ => rfl
  | append_singleton gs g ih =>
      rw [List.map_append, List.mem_append, not_or] at hnew
      rw [ofAll_concat]
      exact fun n => (agreeOn_after (by simpa using hnew.2) n).trans (ih hnew.1 n)

/-! ### What aliases stand for -/

/-- What aliases stand for is bound at the moment of each. -/
def Reaches (table : String) : List (String × String) → Bindings → Prop
  | [], _ => True
  | (given, target) :: rest, m =>
    ∃ column, m table target = some column ∧ Reaches table rest (m.bind table given column)

/-- What the aliases of a registration stand for is bound when it comes to them. -/
def Admits (m : Bindings) (g : Registration) : Prop :=
  Reaches g.table g.aliases.entries (bindFields g.table g.fields.entries m)

theorem AgreeOn.reaches_iff (h : m.AgreeOn m' table) :
    Reaches table entries m ↔ Reaches table entries m' := by
  induction entries generalizing m m' with
  | nil => rfl
  | cons e entries ih =>
      unfold Reaches
      rw [h e.2]
      apply exists_congr
      intro column
      rw [ih (h.bind table e.1 column)]

theorem AgreeOn.admits_iff (h : m.AgreeOn m' g.table) : m.Admits g ↔ m'.Admits g :=
  h.bindFields.reaches_iff

theorem declares_bindFields : (bindFields table entries m).Declares t n ↔
    m.Declares t n ∨ (t = table ∧ n ∈ entries.map Prod.fst) := by
  induction entries generalizing m with
  | nil => simp [bindFields]
  | cons e entries ih =>
      rw [bindFields, ih, declares_bind, List.map_cons, List.mem_cons]
      tauto

theorem Reaches.declares_bindAliases (h : Reaches table entries m) :
    (bindAliases table entries m).Declares t n ↔
      m.Declares t n ∨ (t = table ∧ n ∈ entries.map Prod.fst) := by
  induction entries generalizing m with
  | nil => simp [bindAliases]
  | cons e entries ih =>
      obtain ⟨column, htarget, hrest⟩ := h
      rw [bindAliases, htarget]
      dsimp only
      rw [ih hrest, declares_bind, List.map_cons, List.mem_cons]
      tauto

/-- A table binds its fields and, if they reach what they stand for, its aliases. -/
theorem Admits.declares_after (h : m.Admits g) :
    (m.after g).Declares t n ↔ m.Declares t n ∨ (t = g.table ∧ n ∈ g.names) := by
  rw [after, Reaches.declares_bindAliases h, declares_bindFields, Registration.names,
    List.mem_append]
  simp only [SortedMap.keys]
  tauto

end Bindings

end CriteriaQuery
