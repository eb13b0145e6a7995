import CriteriaQuery.Proofs.Criteria.Grammar
import CriteriaQuery.Proofs.Number.Rounding

/-!
# Criteria written and read again

A tree is well formed when every leaf is one that can be made from its parts and every number in
it is finite. Reading what a tree is written as gives the tree back exactly when it is well
formed, and the trees that the reader gives are well formed.

## Implementation notes

A number that is not finite is written as null. On a leaf whose operator takes no value, null is
read as an absent value, so that such a leaf is accepted but is not given back.
-/

namespace CriteriaQuery

/-- Whether a scalar is finite, which everything but some numbers is. -/
def Scalar.isFinite : Scalar → Bool
  | .float x => x.isFinite
  | _ => true

namespace Criteria

mutual

/-- Every leaf can be made from its parts, and every number in it is finite. -/
def WellFormed : Criteria → Prop
  | .group _ children => AllWellFormed children
  | .leaf field op value =>
    leaf? field op value = .ok (.leaf field op value) ∧ ∀ v ∈ value.toList, v.isFinite = true

def AllWellFormed : List Criteria → Prop
  | [] => True
  | c :: cs => WellFormed c ∧ AllWellFormed cs

end

end Criteria

/-- A member that may be left out denotes its default or what a value denotes. -/
theorem Json.Part.eq_or_exists {α : Type} {R : Json → α → Prop} {default a : α} {raw : Option Json}
    (h : Json.Part R default raw a) : a = default ∨ ∃ value, R value a := by
  cases h with
  | absent | null => exact Or.inl rfl
  | present h => exact Or.inr ⟨_, h⟩

/-- What holds of everything that is related to something holds of a list of such things. -/
theorem forall_of_forall₂ {α β : Type} {R : α → β → Prop} {P : β → Prop} {as : List α}
    {bs : List β} (hR : ∀ a b, R a b → P b) (h : List.Forall₂ R as bs) : ∀ b ∈ bs, P b := by
  induction h with
  | nil => simp
  | cons h _ ih => exact List.forall_mem_cons.mpr ⟨hR _ _ h, ih⟩

/-! ### Scalars and values -/

namespace Scalar

/-- An integer that fits a signed word is written as that integer. -/
theorem denotes_ofInt64 (n : Int64) : Denotes (Json.ofInt64 n) (.int n) := .int rfl

/-- A scalar is denoted by what it is written as exactly when it is finite. -/
theorem denotes_toJson_iff {v : Scalar} : Denotes v.toJson v ↔ v.isFinite = true := by
  cases v with
  | bool b => exact ⟨fun _ => rfl, fun _ => .bool b⟩
  | int n => exact ⟨fun _ => rfl, fun _ => denotes_ofInt64 n⟩
  | text s => exact ⟨fun _ => rfl, fun _ => .text s⟩
  | float x =>
      cases x with
      | finite value => exact ⟨fun _ => rfl, fun _ => .real value⟩
      | nan | infinite _ =>
          constructor
          · rintro ⟨⟩
          · intro h
            cases h

/-- What a value denotes is finite. -/
theorem Denotes.isFinite {value : Json} {v : Scalar} (h : Denotes value v) : v.isFinite = true := by
  cases h with
  | wide h => exact Binary64.isFinite_ofInt _
  | _ => rfl

theorem forall₂_denotes_toJson_iff {vs : List Scalar} :
    List.Forall₂ Denotes (vs.map toJson) vs ↔ ∀ v ∈ vs, v.isFinite = true := by
  simp [List.forall₂_map_left_iff, List.forall₂_same, denotes_toJson_iff]

end Scalar

namespace LeafValue

variable {op : Operator} {value : LeafValue}

/-- The value of a leaf is denoted by the member that holds it exactly when it has the shape that
the operator takes and is finite. -/
theorem denotes_toMembers_iff :
    Denotes op (Json.member? "value" value.toMembers) value ↔
      op.arity? = some value.arity ∧ ∀ v ∈ value.toList, v.isFinite = true := by
  cases value with
  | absent =>
      constructor
      · rintro ⟨⟩
        exact ⟨rfl, by simp [toList]⟩
      · rintro ⟨harity, -⟩
        cases op with
        | nullTest negated => exact .nullTest negated (Or.inl rfl)
        | _ => simp [Operator.arity?, arity] at harity
  | one v =>
      have hfinite : (∀ w ∈ toList (.one v), w.isFinite = true) ↔ v.isFinite = true := by
        simp [toList]
      rw [hfinite, ← Scalar.denotes_toJson_iff]
      constructor
      · rintro (_ | ⟨_, h⟩ | ⟨_, h⟩) <;> exact ⟨rfl, h⟩
      · rintro ⟨harity, h⟩
        cases op with
        | comparison c => exact .comparison c h
        | pattern anchor => exact .pattern anchor h
        | _ => simp [Operator.arity?, arity] at harity
  | many vs =>
      rw [toList, ← Scalar.forall₂_denotes_toJson_iff]
      constructor
      · rintro (_ | _ | _ | ⟨_, h⟩)
        exact ⟨rfl, Json.items_array.mp h⟩
      · rintro ⟨harity, h⟩
        cases op with
        | membership negated => exact .membership negated (.array h)
        | _ => simp [Operator.arity?, arity] at harity

/-- What the member of a leaf denotes has the shape that the operator takes, and is finite. -/
theorem Denotes.arity_isFinite {raw : Option Json} (h : Denotes op raw value) :
    op.arity? = some value.arity ∧ ∀ v ∈ value.toList, v.isFinite = true := by
  cases h with
  | nullTest => exact ⟨rfl, by simp [toList]⟩
  | comparison c h | pattern a h => exact ⟨rfl, by simp [toList, h.isFinite]⟩
  | membership negated h =>
      obtain ⟨h⟩ := h
      exact ⟨rfl, forall_of_forall₂ (fun _ _ hscalar => hscalar.isFinite) h⟩

end LeafValue

/-! ### Trees -/

namespace Criteria

theorem leaf?_eq_ok_iff {field : String} {op : Operator} {value : LeafValue} :
    leaf? field op value = .ok (.leaf field op value) ↔
      Text.isBlank field = false ∧ op.arity? = some value.arity := by
  unfold leaf?
  cases Text.isBlank field with
  | true => simp
  | false =>
      cases op.arity? with
      | none => simp
      | some expected => by_cases h : expected = value.arity <;> simp [h]

theorem wellFormed_leaf_iff {field : String} {op : Operator} {value : LeafValue} :
    WellFormed (.leaf field op value) ↔ Text.isBlank field = false ∧
      op.arity? = some value.arity ∧ ∀ v ∈ value.toList, v.isFinite = true := by
  rw [WellFormed, leaf?_eq_ok_iff, and_assoc]

theorem denotes_leaf_toJson_iff {field : String} {op : Operator} {value : LeafValue} :
    Denotes (toJson (.leaf field op value)) (.leaf field op value) ↔
      WellFormed (.leaf field op value) := by
  rw [wellFormed_leaf_iff, ← LeafValue.denotes_toMembers_iff, toJson]
  constructor
  · rintro (_ | ⟨_, _, hblank, _, hvalue⟩)
    exact ⟨hblank, hvalue⟩
  · rintro ⟨hblank, hvalue⟩
    have hgroup : Json.member? "connector" value.toMembers = none := by
      cases value <;> simp [LeafValue.toMembers, Json.member?]
    exact .leaf (by simpa [Json.member?] using hgroup) rfl hblank rfl hvalue

mutual

/-- A tree is denoted by what it is written as exactly when it is well formed. -/
theorem denotes_toJson_iff : ∀ tree : Criteria, Denotes tree.toJson tree ↔ tree.WellFormed
  | .leaf _ _ _ => denotes_leaf_toJson_iff
  | .group connector children => by
      rw [toJson, WellFormed, ← forall₂_denotes_toJson_iff children]
      constructor
      · rintro (⟨_, hchildren⟩ | _)
        exact Json.items_array.mp ((Json.part_some (by simp)).mp hchildren)
      · intro h
        exact .group rfl (.present (.array h))

theorem forall₂_denotes_toJson_iff : ∀ trees : List Criteria,
    List.Forall₂ Denotes (toJsonAll trees) trees ↔ AllWellFormed trees
  | [] => by simp [toJsonAll, AllWellFormed]
  | tree :: rest => by
      rw [toJsonAll, AllWellFormed, List.forall₂_cons, denotes_toJson_iff tree,
        forall₂_denotes_toJson_iff rest]

end

mutual

/-- What a value denotes is well formed. -/
theorem Denotes.wellFormed : ∀ {tree : Criteria} {value : Json},
    Denotes value tree → tree.WellFormed
  | .leaf field op leafValue, _, .leaf _ _ hblank _ hvalue =>
      wellFormed_leaf_iff.mpr ⟨hblank, hvalue.arity_isFinite⟩
  | .group connector children, _, .group _ hchildren => by
      rw [WellFormed]
      rcases hchildren.eq_or_exists with rfl | ⟨_, ⟨hitems⟩⟩
      · exact trivial
      · exact allWellFormed_of_forall₂ hitems

theorem allWellFormed_of_forall₂ : ∀ {trees : List Criteria} {items : List Json},
    List.Forall₂ Denotes items trees → AllWellFormed trees
  | [], _, _ => trivial
  | _ :: _, _ :: _, .cons htree hrest => ⟨htree.wellFormed, allWellFormed_of_forall₂ hrest⟩

end

/-- Reading what a tree is written as gives the tree back exactly when it is well formed. -/
theorem read_toJson_eq_ok_iff {tree : Criteria} {path : String} :
    read tree.toJson path = .ok tree ↔ tree.WellFormed := by
  rw [read_eq_ok_iff, denotes_toJson_iff]

/-- What the reader gives is well formed. -/
theorem wellFormed_of_read {value : Json} {path : String} {tree : Criteria}
    (h : read value path = .ok tree) : tree.WellFormed :=
  (read_eq_ok_iff.mp h).wellFormed

end Criteria

end CriteriaQuery
