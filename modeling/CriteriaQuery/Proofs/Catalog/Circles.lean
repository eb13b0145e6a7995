import CriteriaQuery.Proofs.Catalog.Conditions
import Mathlib.Data.Fintype.EquivFin
import Mathlib.Logic.Relation
import Mathlib.Order.WellFounded

/-!
# Joins that go round in a circle

The joins of a valid catalog may go round in a circle, but only where nothing leads to it: each
entity is brought in by one join at most, so what leads to a circle is on it. The root is brought in
by none, so no circle is joined to the root, and of a catalog that has one no graph is built.
-/

namespace CriteriaQuery

open Relation

namespace JoinSpec

variable {specs : List JoinSpec} {e e' o : String}

/-- Whether one of the joins leads from an entity to another. -/
def Leads (specs : List JoinSpec) (entity entity' : String) : Prop :=
  ∃ spec ∈ specs, spec.left.entity = entity ∧ spec.right.entity = entity'

/-- The joins lead from the entity, over one or more of them, back to it. -/
def Circles (specs : List JoinSpec) (entity : String) : Prop := TransGen (Leads specs) entity entity

/-- No join brings in the entity. -/
def Original (specs : List JoinSpec) (entity : String) : Prop :=
  ∀ spec ∈ specs, spec.right.entity ≠ entity

/-! ### What leads to a circle -/

theorem Leads.unique (hnodup : (specs.map (·.right.entity)).Nodup) (h : Leads specs e o)
    (h' : Leads specs e' o) : e = e' := by
  obtain ⟨spec, hspec, rfl, hright⟩ := h
  obtain ⟨spec', hspec', rfl, hright'⟩ := h'
  rw [List.inj_on_of_nodup_map hnodup hspec hspec' (hright.trans hright'.symm)]

/-- The only join that leads to an entity of a circle is the one of the circle. -/
theorem Circles.of_leads (hnodup : (specs.map (·.right.entity)).Nodup) (h : Circles specs e)
    (hlead : Leads specs o e) : Circles specs o := by
  obtain ⟨last, hpath, hlast⟩ := TransGen.tail'_iff.mp h
  obtain rfl := hlead.unique hnodup hlast
  exact TransGen.head' hlead hpath

theorem Circles.of_path (hnodup : (specs.map (·.right.entity)).Nodup) (h : Circles specs e)
    (hpath : ReflTransGen (Leads specs) o e) : Circles specs o := by
  induction hpath using ReflTransGen.head_induction_on with
  | refl => exact h
  | head hlead _ ih => exact ih.of_leads hnodup hlead

theorem Circles.not_original (h : Circles specs e) : ¬ Original specs e := by
  intro horiginal
  obtain ⟨last, -, spec, hspec, -, hright⟩ := TransGen.tail'_iff.mp h
  exact horiginal spec hspec hright

/-! ### Where entities come from -/

/-- An entity that some join brings in. There are finitely many of them. -/
def Brought (specs : List JoinSpec) : Type := {e // e ∈ specs.map (·.right.entity)}

instance : Finite (Brought specs) :=
  inferInstanceAs (Finite {e // e ∈ specs.map (·.right.entity)})

/-- Without circles the way back from an entity to those before it ends. -/
theorem wellFounded_brought (hacyclic : ∀ e, ¬ Circles specs e) :
    WellFounded fun a b : Brought specs => TransGen (Leads specs) a.val b.val := by
  have : Std.Irrefl fun a b : Brought specs => TransGen (Leads specs) a.val b.val :=
    ⟨fun a => hacyclic a.val⟩
  have : IsTrans (Brought specs) fun a b => TransGen (Leads specs) a.val b.val :=
    ⟨fun _ _ _ => TransGen.trans⟩
  exact Finite.wellFounded_of_trans_of_irrefl _

theorem original_of_notMem (h : e ∉ specs.map (·.right.entity)) : Original specs e :=
  fun spec hspec heq => h (List.mem_map.mpr ⟨spec, hspec, heq⟩)

/-- Without circles every entity comes from one that no join brings in. -/
theorem exists_original (hacyclic : ∀ e, ¬ Circles specs e) (e : String) :
    ∃ o, Original specs o ∧ ReflTransGen (Leads specs) o e := by
  have hbrought : ∀ b : Brought specs,
      ∃ o, Original specs o ∧ ReflTransGen (Leads specs) o b.val := by
    intro b
    induction b using (wellFounded_brought hacyclic).induction with
    | _ b ih =>
        obtain ⟨spec, hspec, hright⟩ := List.mem_map.mp b.property
        have hlead : Leads specs spec.left.entity b.val := ⟨spec, hspec, rfl, hright⟩
        by_cases hleft : spec.left.entity ∈ specs.map (·.right.entity)
        · obtain ⟨o, ho, hpath⟩ := ih ⟨spec.left.entity, hleft⟩ (TransGen.single hlead)
          exact ⟨o, ho, hpath.tail hlead⟩
        · exact ⟨spec.left.entity, original_of_notMem hleft, ReflTransGen.single hlead⟩
  by_cases he : e ∈ specs.map (·.right.entity)
  · exact hbrought ⟨e, he⟩
  · exact ⟨e, original_of_notMem he, ReflTransGen.refl⟩

/-- Joins that each start somewhere lead from there to all entities that they bring in. -/
theorem path_of_starts {root : String}
    (hstarts : ∀ i spec, specs[i]? = some spec → Starts [root] specs i spec) {i : Nat}
    {spec : JoinSpec} (hspec : specs[i]? = some spec) :
    ReflTransGen (Leads specs) root spec.right.entity := by
  induction i using Nat.strong_induction_on generalizing spec with
  | _ i ih =>
      have hlead : Leads specs spec.left.entity spec.right.entity :=
        ⟨spec, List.mem_of_getElem? hspec, rfl, rfl⟩
      rcases hstarts i spec hspec with hroot | hearlier
      · rw [← List.mem_singleton.mp hroot]
        exact ReflTransGen.single hlead
      · obtain ⟨before, hbefore, hentity⟩ := List.mem_map.mp hearlier
        obtain ⟨j, hj, hget⟩ := List.mem_take_iff_getElem.mp hbefore
        have hpath : ReflTransGen (Leads specs) root before.right.entity :=
          ih j (Nat.lt_of_lt_of_le hj (Nat.min_le_left _ _)) (by simp [← hget])
        exact (hentity ▸ hpath).tail hlead

end JoinSpec

namespace Catalog

open JoinSpec

variable {c : Catalog} {e : String}

theorem brings_of_validate (h : c.validate = .ok ()) :
    (c.joins.map (·.right.entity)).Nodup ∧ Original c.joins c.root := by
  obtain ⟨-, -, hnodup, hfresh⟩ := checkJoins_eq_ok_iff.mp (checkJoins_of_validate h).2
  exact ⟨hnodup, by simpa [Original] using hfresh⟩

/-- No join of a valid catalog leads from an entity to itself. -/
theorem not_leads_self (h : c.validate = .ok ()) : ¬ Leads c.joins e e := by
  obtain ⟨-, hapart, -, -⟩ := checkJoins_eq_ok_iff.mp (checkJoins_of_validate h).2
  rintro ⟨spec, hspec, hleft, hright⟩
  exact hapart spec hspec (hleft.trans hright.symm)

/-- A catalog with a circle has a join that starts nowhere. -/
theorem stray?_ne_none_of_circles (h : c.validate = .ok ()) (hcircle : Circles c.joins e) :
    stray? [c.root] c.joins ≠ none := by
  obtain ⟨hnodup, horiginal⟩ := brings_of_validate h
  intro hnone
  obtain ⟨last, -, spec, hspec, -, rfl⟩ := TransGen.tail'_iff.mp hcircle
  obtain ⟨i, hi⟩ := List.mem_iff_getElem?.mp hspec
  have hpath := path_of_starts (stray?_eq_none_iff.mp hnone) hi
  exact (hcircle.of_path hnodup hpath).not_original horiginal

/-- No join of a valid catalog leads from an entity to itself, and whatever leads to a circle of it
is on the circle, and is not the root. There is no circle exactly if every entity comes from one
that no join brings in; and with a circle there is no graph, since some join starts nowhere. -/
theorem circles_apart (c : Catalog) (hvalid : c.validate = .ok ()) :
    (∀ e, ¬ Leads c.joins e e) ∧
    (∀ e, Circles c.joins e → ∀ o, ReflTransGen (Leads c.joins) o e →
      Circles c.joins o ∧ o ≠ c.root) ∧
    ((∀ e, ¬ Circles c.joins e) ↔
      ∀ e, ∃ o, Original c.joins o ∧ ReflTransGen (Leads c.joins) o e) ∧
    ∀ e, Circles c.joins e → ∀ source b, GraphBuilder.Remembers c.load source b →
      ∃ i spec, FirstStray [c.root] c.joins i spec ∧
        (GraphBuilder.build c.load source c.joinDescription b).1 =
          .error (.disconnectedJoin spec.left.entity) := by
  obtain ⟨hnodup, hroot⟩ := brings_of_validate hvalid
  refine ⟨fun e => not_leads_self hvalid, ?_, ⟨exists_original, ?_⟩, ?_⟩
  · intro e hcircle o hpath
    have horigin := hcircle.of_path hnodup hpath
    refine ⟨horigin, ?_⟩
    rintro rfl
    exact horigin.not_original hroot
  · intro horiginal e hcircle
    obtain ⟨o, ho, hpath⟩ := horiginal e
    exact (hcircle.of_path hnodup hpath).not_original ho
  · intro e hcircle source b hb
    have hgraph := build_outcome hvalid hb
    cases hstray : stray? [c.root] c.joins with
    | none => exact absurd hstray (stray?_ne_none_of_circles hvalid hcircle)
    | some entity =>
        rw [hstray] at hgraph
        obtain ⟨i, spec, hfirst, rfl⟩ := exists_of_stray? hstray
        exact ⟨i, spec, hfirst, hgraph⟩

/-- Two tables that are joined with each other and neither of them with the root. -/
def circlingCatalog : Catalog where
  root := "Order"
  tables := [
    ⟨"Order", "orders", SortedMap.ofList [("id", "id")], ∅⟩,
    ⟨"Item", "items", SortedMap.ofList [("id", "id"), ("note", "note_id")], ∅⟩,
    ⟨"Note", "notes", SortedMap.ofList [("id", "id"), ("item", "item_id")], ∅⟩]
  joins := [
    ⟨⟨"Item", "note"⟩, ⟨"Note", "id"⟩, .inner⟩,
    ⟨⟨"Note", "item"⟩, ⟨"Item", "id"⟩, .inner⟩]

theorem leads_item : Leads circlingCatalog.joins "Item" "Note" :=
  ⟨_, List.mem_cons_self, rfl, rfl⟩

theorem leads_note : Leads circlingCatalog.joins "Note" "Item" :=
  ⟨_, List.mem_cons_of_mem _ List.mem_cons_self, rfl, rfl⟩

/-- A valid catalog may have a circle. -/
theorem circles_of_valid :
    circlingCatalog.validate = .ok () ∧ Circles circlingCatalog.joins "Item" :=
  ⟨rfl, TransGen.tail (TransGen.single leads_item) leads_note⟩

theorem circles_apart_circling :
    circlingCatalog.validate = .ok () ∧ Circles circlingCatalog.joins "Note" ∧
      ¬ ReflTransGen (Leads circlingCatalog.joins) "Order" "Note" ∧
      ∃ entity, (GraphBuilder.build circlingCatalog.load "default" circlingCatalog.joinDescription
        {}).1 = .error (.disconnectedJoin entity) := by
  have hcircle : Circles circlingCatalog.joins "Note" :=
    TransGen.tail (TransGen.single leads_note) leads_item
  obtain ⟨-, hapart, -, hgraph⟩ := circles_apart circlingCatalog rfl
  refine ⟨rfl, hcircle, fun hpath => (hapart "Note" hcircle "Order" hpath).2 rfl, ?_⟩
  obtain ⟨_, spec, -, hbuild⟩ := hgraph "Note" hcircle "default" {}
    (GraphBuilder.remembers_start _ _)
  exact ⟨spec.left.entity, hbuild⟩

end Catalog

end CriteriaQuery
