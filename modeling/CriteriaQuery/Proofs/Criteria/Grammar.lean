import CriteriaQuery.Criteria.Reader
import CriteriaQuery.Proofs.Outcome
import Mathlib.Data.List.Forall2

/-!
# The grammar of criteria

Which JSON values are criteria, and which tree each of them denotes, is said by rules: one for a
group, one for a leaf, and one for the value of each kind of operator. The reader accepts exactly
the values that the rules admit and gives the tree that they denote, wherever in a document the
value stands.

## Implementation notes

A member that may be left out is absent or null, and then denotes a default. Only `connector` is
different: a node that has it is a group, whatever its value is.
-/

namespace CriteriaQuery

namespace Json

variable {α : Type}

/-- A member that may be left out: its default when it is absent or null, and otherwise what its
value denotes. -/
inductive Part (R : Json → α → Prop) (default : α) : Option Json → α → Prop
  | absent : Part R default none default
  | null : Part R default (some .null) default
  | present {value : Json} {a : α} (h : R value a) : Part R default (some value) a

/-- The items of an array, each with what it denotes, in order. -/
inductive Items (R : Json → α → Prop) : Json → List α → Prop
  | array {items : List Json} {as : List α} (h : List.Forall₂ R items as) :
    Items R (.array items) as

variable {R : Json → α → Prop} {default a : α} {as : List α}

@[simp] theorem part_none : Part R default none a ↔ a = default := by
  constructor
  · rintro ⟨⟩
    rfl
  · rintro rfl
    exact .absent

/-- Null is the default as long as it denotes nothing itself. -/
theorem part_null (hnull : ¬ R .null a) : Part R default (some .null) a ↔ a = default := by
  constructor
  · intro h
    cases h with
    | null => rfl
    | present h => exact absurd h hnull
  · rintro rfl
    exact .null

theorem part_some {value : Json} (hvalue : value ≠ .null) :
    Part R default (some value) a ↔ R value a := by
  constructor
  · intro h
    cases h with
    | null => exact absurd rfl hvalue
    | present h => exact h
  · exact .present

@[simp] theorem items_array {items : List Json} :
    Items R (.array items) as ↔ List.Forall₂ R items as := by
  constructor
  · rintro ⟨h⟩
    exact h
  · exact .array

/-- Only an array has items. -/
theorem not_items {value : Json} (hvalue : ∀ items, value ≠ .array items) : ¬ Items R value as := by
  rintro ⟨-⟩
  exact hvalue _ rfl

end Json

/-- The scalar that a JSON value denotes: a number is an integer as far as signed words go. -/
inductive Scalar.Denotes : Json → Scalar → Prop
  | bool (b : Bool) : Denotes (.bool b) (.bool b)
  | text (s : String) : Denotes (.string s) (.text s)
  | int {n : WideInt} {v : Int64} (h : v.toInt = n.val) : Denotes (.number (.integer n)) (.int v)
  | wide {n : WideInt} (h : 9223372036854775807 < n.val) :
    Denotes (.number (.integer n)) (.float (Binary64.ofInt n.val))
  | real (v : Finite64) : Denotes (.number (.real v)) (.float (.finite v))

/-- What the member `value` of a leaf denotes for an operator. No rule is about connectors. -/
inductive LeafValue.Denotes : Operator → Option Json → LeafValue → Prop
  | nullTest (negated : Bool) {raw : Option Json} (h : raw = none ∨ raw = some .null) :
    Denotes (.nullTest negated) raw .absent
  | comparison (c : Comparison) {value : Json} {v : Scalar} (h : Scalar.Denotes value v) :
    Denotes (.comparison c) (some value) (.one v)
  | pattern (anchor : Anchor) {value : Json} {v : Scalar} (h : Scalar.Denotes value v) :
    Denotes (.pattern anchor) (some value) (.one v)
  | membership (negated : Bool) {value : Json} {vs : List Scalar}
    (h : Json.Items Scalar.Denotes value vs) : Denotes (.membership negated) (some value) (.many vs)

namespace Criteria

/-- The tree that a JSON value denotes. -/
inductive Denotes : Json → Criteria → Prop
  | group {members : List (String × Json)} {connector : Connector} {children : List Criteria}
    (hconnector : Json.member? "connector" members = some (.string connector.literal))
    (hchildren : Json.Part (Json.Items Denotes) [] (Json.member? "children" members) children) :
    Denotes (.object members) (.group connector children)
  | leaf {members : List (String × Json)} {field : String} {op : Operator} {value : LeafValue}
    (hgroup : Json.member? "connector" members = none)
    (hfield : Json.member? "field" members = some (.string field))
    (hblank : Text.isBlank field = false)
    (hop : Json.member? "op" members = some (.string op.literal))
    (hvalue : LeafValue.Denotes op (Json.member? "value" members) value) :
    Denotes (.object members) (.leaf field op value)

end Criteria

/-! ### Scalars and values -/

namespace Scalar

/-- An integer fits a signed word as long as it is not above the greatest one. -/
theorem ofNumber_integer (n : WideInt) :
    ofNumber (.integer n) = if n.val ≤ 9223372036854775807 then .int (Int64.ofInt n.val)
      else .float (Binary64.ofInt n.val) := by
  have hmax : Int64.maxValue.toInt = 9223372036854775807 := rfl
  rw [ofNumber, hmax]

theorem ofNumber_eq_iff {n : Number} {v : Scalar} : ofNumber n = v ↔ Denotes (.number n) v := by
  constructor
  · rintro rfl
    cases n with
    | real x => exact .real x
    | integer n =>
        have hlower := n.lower
        rw [ofNumber_integer]
        by_cases hupper : n.val ≤ 9223372036854775807
        · rw [if_pos hupper]
          exact .int (Int64.toInt_ofInt_of_le hlower (Int.lt_add_one_of_le hupper))
        · rw [if_neg hupper]
          exact .wide (Int.not_le.mp hupper)
  · intro h
    cases h with
    | real x => rfl
    | @int n v h =>
        have hupper : n.val ≤ 9223372036854775807 := h ▸ Int64.toInt_le v
        rw [ofNumber_integer, if_pos hupper, ← h, Int64.ofInt_toInt]
    | wide h => rw [ofNumber_integer, if_neg (Int.not_le.mpr h)]

theorem ofJson?_eq_some_iff {value : Json} {v : Scalar} :
    ofJson? value = some v ↔ Denotes value v := by
  cases value with
  | number n => rw [ofJson?, Option.some.injEq, ofNumber_eq_iff]
  | bool b =>
      constructor
      · rintro ⟨⟩
        exact .bool b
      · rintro ⟨⟩
        rfl
  | string s =>
      constructor
      · rintro ⟨⟩
        exact .text s
      · rintro ⟨⟩
        rfl
  | _ => exact ⟨by simp [ofJson?], by rintro ⟨⟩⟩

end Scalar

namespace LeafValue

theorem readScalars_eq_ok_iff {path : String} {index : Nat} {items : List Json}
    {vs : List Scalar} :
    readScalars path index items = .ok vs ↔ List.Forall₂ Scalar.Denotes items vs := by
  induction items generalizing index vs with
  | nil => simp [readScalars, eq_comm]
  | cons item rest ih =>
      rw [readScalars, List.forall₂_cons_left_iff]
      simp only [← Scalar.ofJson?_eq_some_iff]
      cases Scalar.ofJson? item with
      | none => simp
      | some v => simp [map_eq_ok_iff, ih, @eq_comm _ vs]

variable {op : Operator} {json : Json} {path : String} {value : LeafValue}

theorem read_none_eq_ok_iff :
    read op .none json path = .ok value ↔ json = .null ∧ value = .absent := by
  cases json <;> simp [read, eq_comm]

theorem read_one_eq_ok_iff :
    read op .one json path = .ok value ↔ ∃ v, Scalar.Denotes json v ∧ value = .one v := by
  simp only [← Scalar.ofJson?_eq_some_iff]
  cases hscalar : Scalar.ofJson? json <;> simp [read, hscalar, eq_comm]

theorem read_many_eq_ok_iff :
    read op .many json path = .ok value ↔
      ∃ vs, Json.Items Scalar.Denotes json vs ∧ value = .many vs := by
  cases json with
  | array items => simp [read, map_eq_ok_iff, readScalars_eq_ok_iff, @eq_comm _ value]
  | _ =>
      constructor
      · simp [read]
      · rintro ⟨vs, ⟨⟩, -⟩

/-- The value of a leaf is read as what its member denotes, null standing for an absent one. -/
theorem read_eq_ok_iff {expected : Arity} {raw : Option Json} (hop : op.arity? = some expected) :
    read op expected (raw.getD .null) path = .ok value ↔ Denotes op raw value := by
  cases op with
  | connective c => simp [Operator.arity?] at hop
  | nullTest negated =>
      obtain rfl : Arity.none = expected := by simpa [Operator.arity?] using hop
      rw [read_none_eq_ok_iff]
      constructor
      · rintro ⟨hnull, rfl⟩
        apply Denotes.nullTest
        cases raw with
        | none => exact Or.inl rfl
        | some json => exact Or.inr (congrArg some hnull)
      · rintro ⟨-, rfl | rfl⟩ <;> exact ⟨rfl, rfl⟩
  | membership negated =>
      obtain rfl : Arity.many = expected := by simpa [Operator.arity?] using hop
      rw [read_many_eq_ok_iff]
      constructor
      · rintro ⟨vs, hitems, rfl⟩
        cases raw with
        | none => cases hitems
        | some json => exact .membership negated hitems
      · rintro ⟨⟩
        next vs hitems => exact ⟨vs, hitems, rfl⟩
  | comparison _ | pattern _ =>
      obtain rfl : Arity.one = expected := by simpa [Operator.arity?] using hop
      rw [read_one_eq_ok_iff]
      constructor
      · rintro ⟨v, hscalar, rfl⟩
        cases raw with
        | none => cases hscalar
        | some json =>
            constructor
            exact hscalar
      · rintro ⟨⟩
        next v hscalar => exact ⟨v, hscalar, rfl⟩

/-- Whatever denotes a value stands on a leaf. -/
theorem Denotes.exists_arity {raw : Option Json} (h : Denotes op raw value) :
    ∃ arity, op.arity? = some arity := by
  cases h <;> exact ⟨_, rfl⟩

end LeafValue

/-! ### Nodes -/

namespace Criteria

variable {members : List (String × Json)} {path : String}

theorem readField_eq_ok_iff {field : String} :
    readField members path = .ok field ↔
      Json.member? "field" members = some (.string field) ∧ Text.isBlank field = false := by
  unfold readField
  split
  · next s hmember =>
      rw [hmember, Option.some.injEq, Json.string.injEq]
      constructor
      · intro h
        split at h
        · simp at h
        · next hblank =>
            obtain rfl := Except.ok.inj h
            exact ⟨rfl, by simpa using hblank⟩
      · rintro ⟨rfl, hblank⟩
        rw [if_neg (by simp [hblank])]
  · next v hstring hmember =>
      rw [hmember]
      simp only [reduceCtorEq, Option.some.injEq, false_iff]
      rintro ⟨rfl, -⟩
      exact hstring field rfl
  · next hmember => simp [hmember]

theorem readToken_eq_ok_iff {token : String} {op : Operator} :
    readToken token = .ok op ↔ op.literal = token := by
  rw [← Operator.ofLiteral?_eq_some_iff, readToken]
  cases Operator.ofLiteral? token <;> simp

theorem readOperator_eq_ok_iff {op : Operator} {arity : Arity} :
    readOperator members path = .ok (op, arity) ↔
      Json.member? "op" members = some (.string op.literal) ∧ op.arity? = some arity := by
  unfold readOperator
  split
  · next token hmember =>
      simp only [bind_eq_ok_iff, readToken_eq_ok_iff, hmember, Option.some.injEq,
        Json.string.injEq]
      constructor
      · rintro ⟨op', rfl, h⟩
        split at h
        · next arity' harity =>
            obtain ⟨rfl, rfl⟩ : op' = op ∧ arity' = arity := by simpa using h
            exact ⟨rfl, harity⟩
        · simp at h
      · rintro ⟨rfl, harity⟩
        exact ⟨op, rfl, by simp [harity]⟩
  · next v hstring hmember =>
      rw [hmember]
      simp only [reduceCtorEq, Option.some.injEq, false_iff]
      rintro ⟨rfl, -⟩
      exact hstring _ rfl
  · next hmember => simp [hmember]

theorem connector?_eq_some_iff {op : Operator} {connector : Connector} :
    op.connector? = some connector ↔ op = .connective connector := by
  cases op <;> simp [Operator.connector?]

theorem readConnector_eq_ok_iff {connector : Connector} :
    readConnector members path = .ok connector ↔
      Json.member? "connector" members = some (.string connector.literal) := by
  unfold readConnector
  split
  · next token hmember =>
      simp only [bind_eq_ok_iff, readToken_eq_ok_iff, hmember, Option.some.injEq,
        Json.string.injEq]
      constructor
      · rintro ⟨op, rfl, h⟩
        split at h
        · next c hc =>
            obtain rfl : c = connector := by simpa using h
            rw [connector?_eq_some_iff.mp hc]
            rfl
        · simp at h
      · rintro rfl
        exact ⟨.connective connector, rfl, by simp [Operator.connector?]⟩
  · next hstring =>
      simp only [reduceCtorEq, false_iff]
      exact hstring _

theorem readLeaf_eq_ok_iff {tree : Criteria} (hgroup : Json.member? "connector" members = none) :
    readLeaf members path = .ok tree ↔ Denotes (.object members) tree := by
  simp only [readLeaf, bind_eq_ok_iff, Prod.exists, readField_eq_ok_iff, readOperator_eq_ok_iff,
    pure_eq_ok_iff]
  constructor
  · rintro ⟨field, ⟨hfield, hblank⟩, op, arity, ⟨hop, harity⟩, value, hvalue, rfl⟩
    exact .leaf hgroup hfield hblank hop ((LeafValue.read_eq_ok_iff harity).mp hvalue)
  · intro h
    cases h with
    | group hconnector _ => simp [hgroup] at hconnector
    | leaf _ hfield hblank hop hvalue =>
        obtain ⟨arity, harity⟩ := hvalue.exists_arity
        exact ⟨_, ⟨hfield, hblank⟩, _, arity, ⟨hop, harity⟩, _,
          (LeafValue.read_eq_ok_iff harity).mpr hvalue, rfl⟩

/-- A node with a connector is read as a group, as long as its children are read as what they
denote. -/
theorem read_group_eq_ok_iff {tree : Criteria} (hmember : Json.hasMember "connector" members = true)
    (hread : ∀ items, Json.member? "children" members = some (.array items) → ∀ trees,
      readAll items (path ++ ".children") 0 = .ok trees ↔ List.Forall₂ Denotes items trees) :
    read (.object members) path = .ok tree ↔ Denotes (.object members) tree := by
  rw [read, if_pos hmember, bind_eq_ok_iff]
  simp only [readConnector_eq_ok_iff]
  constructor
  · rintro ⟨connector, hconnector, h⟩
    split at h
    · next hnone =>
        obtain rfl := pure_eq_ok_iff.mp h
        exact .group hconnector (hnone ▸ .absent)
    · next hnull =>
        obtain rfl := pure_eq_ok_iff.mp h
        exact .group hconnector (hnull ▸ .null)
    · next items hitems =>
        obtain ⟨children, hchildren, h⟩ := bind_eq_ok_iff.mp h
        obtain rfl := pure_eq_ok_iff.mp h
        have hdenotes := (hread items hitems children).mp hchildren
        exact .group hconnector (hitems ▸ .present (.array hdenotes))
    · simp at h
  · intro h
    cases h with
    | leaf hgroup => simp [Json.hasMember, hgroup] at hmember
    | @group _ connector children hconnector hchildren =>
        refine ⟨connector, hconnector, ?_⟩
        split
        · next hnone =>
            obtain rfl := Json.part_none.mp (hnone ▸ hchildren)
            rfl
        · next hnull =>
            obtain rfl := (Json.part_null (Json.not_items (by simp))).mp (hnull ▸ hchildren)
            rfl
        · next items hitems =>
            have hpart := (Json.part_some (by simp)).mp (hitems ▸ hchildren)
            rw [(hread items hitems children).mpr (Json.items_array.mp hpart)]
            rfl
        · next other hnull harray hother =>
            have hpart := (Json.part_some (by simpa using hnull)).mp (hother ▸ hchildren)
            exact absurd hpart (Json.not_items harray)

theorem reads_iff_denotes :
    (∀ value path, ∀ tree, read value path = .ok tree ↔ Denotes value tree) ∧
      ∀ items path index, ∀ trees,
        readAll items path index = .ok trees ↔ List.Forall₂ Denotes items trees := by
  refine read.mutual_induct
    (fun value path => ∀ tree, read value path = .ok tree ↔ Denotes value tree)
    (fun items path index => ∀ trees,
      readAll items path index = .ok trees ↔ List.Forall₂ Denotes items trees)
    ?_ ?_ ?_ ?_ ?_ ?_
  · intro path members hmember hread tree
    exact read_group_eq_ok_iff hmember hread
  · intro path members hgroup hleaf tree
    rw [read, if_neg hgroup, if_pos hleaf]
    exact readLeaf_eq_ok_iff (by simpa [Json.hasMember] using hgroup)
  · intro path members hgroup hleaf tree
    rw [read, if_neg hgroup, if_neg hleaf]
    simp only [reduceCtorEq, false_iff]
    intro h
    cases h with
    | group hconnector => simp [Json.hasMember, hconnector] at hgroup
    | leaf _ hfield => simp [Json.hasMember, hfield] at hleaf
  · intro value path hobject tree
    constructor
    · intro h
      unfold read at h
      split at h
      · next members => exact absurd rfl (hobject members)
      · simp at h
    · intro h
      cases h with
      | group => exact absurd rfl (hobject _)
      | leaf => exact absurd rfl (hobject _)
  · intro path index trees
    simp [readAll, eq_comm]
  · intro path index item rest ih ihrest trees
    simp only [readAll, bind_eq_ok_iff, ih, ihrest, pure_eq_ok_iff, List.forall₂_cons_left_iff]
    constructor
    · rintro ⟨tree, htree, rest', hrest, rfl⟩
      exact ⟨tree, rest', htree, hrest, rfl⟩
    · rintro ⟨tree, rest', htree, hrest, rfl⟩
      exact ⟨tree, htree, rest', hrest, rfl⟩

/-- The reader accepts exactly the values that denote a tree, and gives that tree. -/
theorem read_eq_ok_iff {value : Json} {path : String} {tree : Criteria} :
    read value path = .ok tree ↔ Denotes value tree :=
  reads_iff_denotes.1 value path tree

end Criteria

end CriteriaQuery
