import CriteriaQuery.Proofs.Document.RoundTrip

/-!
# Literals of documents

Every literal of a document that was read is found again, on the same leaf and in the same position,
in what the document is written as. It is the same literal unless it is an integer above the signed
words: scalars have no such integers, and the nearest binary number takes its place.
-/

namespace CriteriaQuery

/-! ### Where literals stand -/

/-- What stands in a position of a leaf's value: the value itself unless it is a list, or an item
of a list. -/
def Json.positioned? : Option Nat → Json → Option Json
  | some index, .array items => items[index]?
  | some _, _ => none
  | none, .array _ => none
  | none, .null => none
  | none, value => some value

/-- The literal in a position of the value of the leaf at an address, each number of which says
which child of a group to take. -/
def Criteria.literal? : List Nat → Option Nat → Json → Option Json
  | [], position, .object members =>
    if Json.hasMember "connector" members then none
    else (Json.member? "value" members).bind (Json.positioned? position)
  | i :: address, position, .object members =>
    if Json.hasMember "connector" members then
      match Json.member? "children" members with
      | some (.array items) => (items[i]?).bind (Criteria.literal? address position)
      | _ => none
    else none
  | _, _, _ => none

/-- The literal in a position of a leaf of a document's criteria. -/
def Document.literal? (address : List Nat) (position : Option Nat) : Json → Option Json
  | .object members =>
    (Json.member? "criteria" members).bind (Criteria.literal? address position)
  | _ => none

/-- What becomes of a literal: it stays as it is, except that an integer above the signed words is
rounded to a binary number. -/
inductive Json.Kept : Json → Json → Prop
  | same {literal : Json}
    (h : ∀ n, literal = .number (.integer n) → n.val ≤ 9223372036854775807) : Kept literal literal
  | rounded {n : WideInt} {x : Finite64} (h : 9223372036854775807 < n.val)
    (hx : Binary64.ofInt n.val = .finite x) : Kept (.number (.integer n)) (.number (.real x))

/-! ### Scalars and values -/

theorem Scalar.Denotes.kept {literal : Json} {v : Scalar} (h : Scalar.Denotes literal v) :
    literal.Kept v.toJson := by
  cases h with
  | bool b => exact .same (by simp)
  | text s => exact .same (by simp)
  | real x => exact .same (by simp)
  | @int n v h =>
      have hwritten : (Scalar.int v).toJson = .number (.integer n) := by
        obtain ⟨value, lower, upper⟩ := n
        obtain rfl : v.toInt = value := h
        rfl
      rw [hwritten]
      apply Json.Kept.same
      intro n' hn'
      obtain rfl : n = n' := by simpa using hn'
      exact h ▸ Int64.toInt_le v
  | @wide n h =>
      obtain ⟨x, hx⟩ := Binary64.exists_finite_ofInt n
      rw [Scalar.toJson, hx]
      exact .rounded h hx

/-- A scalar is no list, so that it stands in no position but that of the whole value. -/
theorem Scalar.Denotes.positioned?_eq_some_iff {value literal : Json} {v : Scalar}
    (h : Scalar.Denotes value v) {position : Option Nat} :
    Json.positioned? position value = some literal ↔ position = none ∧ value = literal := by
  cases position with
  | none => cases h <;> simp [Json.positioned?]
  | some index => cases h <;> simp [Json.positioned?]

/-- What stands in a position of a list stands there in a list of related things. -/
theorem exists_getElem?_of_forall₂ {α β : Type} {R : α → β → Prop} {as : List α} {bs : List β}
    (h : List.Forall₂ R as bs) {i : Nat} {a : α} (ha : as[i]? = some a) :
    ∃ b, bs[i]? = some b ∧ R a b := by
  obtain ⟨hi, rfl⟩ := List.getElem?_eq_some_iff.mp ha
  have hi' : i < bs.length := h.length_eq ▸ hi
  exact ⟨bs[i], List.getElem?_eq_getElem hi', h.get hi hi'⟩

theorem LeafValue.Denotes.literal {op : Operator} {raw : Option Json} {value : LeafValue}
    (h : LeafValue.Denotes op raw value) {position : Option Nat} {literal : Json}
    (hliteral : raw.bind (Json.positioned? position) = some literal) :
    ∃ written, (Json.member? "value" value.toMembers).bind (Json.positioned? position) =
      some written ∧ literal.Kept written := by
  cases h with
  | nullTest negated hnull =>
      rcases hnull with rfl | rfl
      · cases hliteral
      · cases position <;> cases hliteral
  | @comparison c value v h | @pattern a value v h =>
      obtain ⟨rfl, rfl⟩ : position = none ∧ value = literal := by
        simpa [h.positioned?_eq_some_iff] using hliteral
      have hwritten : Scalar.Denotes v.toJson v := Scalar.denotes_toJson_iff.mpr h.isFinite
      exact ⟨v.toJson, hwritten.positioned?_eq_some_iff.mpr ⟨rfl, rfl⟩, h.kept⟩
  | membership negated h =>
      obtain ⟨h⟩ := h
      cases position with
      | none => cases hliteral
      | some index =>
          obtain ⟨v, hv, hdenotes⟩ := exists_getElem?_of_forall₂ h hliteral
          refine ⟨v.toJson, ?_, hdenotes.kept⟩
          simp [toMembers, Json.member?, Json.positioned?, hv]

/-! ### Trees -/

namespace Criteria

theorem Denotes.literal {value : Json} {tree : Criteria} (h : Denotes value tree)
    {address : List Nat} {position : Option Nat} {literal : Json}
    (hliteral : literal? address position value = some literal) :
    ∃ written, literal? address position tree.toJson = some written ∧ literal.Kept written := by
  induction address generalizing value tree with
  | nil =>
      cases h with
      | group hconnector _ => simp [literal?, Json.hasMember, hconnector] at hliteral
      | @leaf members field op leafValue hgroup _ _ _ hvalue =>
          simp only [literal?, Json.hasMember, hgroup] at hliteral
          obtain ⟨written, hwritten, hkept⟩ := hvalue.literal hliteral
          have htree : literal? [] position (toJson (.leaf field op leafValue)) =
              (Json.member? "value" leafValue.toMembers).bind (Json.positioned? position) := by
            cases leafValue <;> rfl
          exact ⟨written, htree.trans hwritten, hkept⟩
  | cons i address ih =>
      cases h with
      | leaf hgroup => simp [literal?, Json.hasMember, hgroup] at hliteral
      | @group members connector trees hconnector hchildren =>
          simp only [literal?, Json.hasMember, hconnector] at hliteral
          cases hmember : Json.member? "children" members with
          | none => simp [hmember] at hliteral
          | some children =>
              rw [hmember] at hliteral hchildren
              cases children with
              | array items =>
                  obtain ⟨item, hitem, hliteral⟩ := Option.bind_eq_some_iff.mp hliteral
                  have hitems := Json.items_array.mp ((Json.part_some (by simp)).mp hchildren)
                  obtain ⟨child, hchild, hdenotes⟩ := exists_getElem?_of_forall₂ hitems hitem
                  obtain ⟨written, hwritten, hkept⟩ := ih hdenotes hliteral
                  refine ⟨written, ?_, hkept⟩
                  simpa [literal?, toJson, toJsonAll_eq_map, Json.hasMember, Json.member?, hchild]
                    using hwritten
              | _ => simp at hliteral

end Criteria

/-! ### Documents -/

namespace Document

theorem criteria_of_ofJson {members : List (String × Json)} {d : Document}
    (h : ofJson (.object members) = .ok d) :
    Json.Part Criteria.Denotes .unrestricted (Json.member? "criteria" members) d.criteria := by
  obtain ⟨criteria, hcriteria, h⟩ := bind_eq_ok_iff.mp h
  obtain ⟨pager, -, h⟩ := bind_eq_ok_iff.mp h
  obtain ⟨sorter, -, h⟩ := bind_eq_ok_iff.mp h
  obtain ⟨projection, -, h⟩ := bind_eq_ok_iff.mp h
  obtain rfl := pure_eq_ok_iff.mp h
  exact (readPart_eq_ok_iff (fun _ => Criteria.read_eq_ok_iff) (by rintro ⟨⟩)).mp hcriteria

/-- Every literal of a document that is read stands in the same place in what the document is
written as, and is the same literal there unless it is an integer above the signed words, which is
rounded to a binary number. -/
theorem literals_kept {value : Json} {d : Document} (h : ofJson value = .ok d) {address : List Nat}
    {position : Option Nat} {literal : Json}
    (hliteral : literal? address position value = some literal) :
    ∃ written, literal? address position d.toJson = some written ∧ literal.Kept written := by
  cases value with
  | object members =>
      have hcriteria := criteria_of_ofJson h
      obtain ⟨criteria, hmember, hliteral⟩ := Option.bind_eq_some_iff.mp hliteral
      rw [hmember] at hcriteria
      cases criteria with
      | null => cases address <;> cases hliteral
      | _ => exact ((Json.part_some (by simp)).mp hcriteria).literal hliteral
  | _ => cases hliteral

/-- An item of a list on the first leaf of a group, an integer above the signed words. -/
theorem literals_kept_loose :
    ofJson looseJson = .ok loose ∧
      literal? [0] (some 0) looseJson =
        some (.number (.integer ⟨9223372036854775808, by decide, by decide⟩)) ∧
      ∃ written, literal? [0] (some 0) loose.toJson = some written ∧
        Json.Kept (.number (.integer ⟨9223372036854775808, by decide, by decide⟩)) written :=
  ⟨ofJson_looseJson, rfl, literals_kept ofJson_looseJson rfl⟩

/-- A document that asks for an integer which no binary number is equal to. -/
def wideJson : Json :=
  .object [("criteria", .object [("field", .string "id"), ("op", .string "="),
    ("value", .number (.integer ⟨9223372036854775809, by decide, by decide⟩))])]

/-- What this document denotes. -/
def wide : Document where
  criteria := .leaf "id" (.comparison .equal) (.one (.float (Binary64.ofInt 9223372036854775809)))

theorem ofJson_wideJson : ofJson wideJson = .ok wide := by
  have hcriteria : Criteria.Denotes (.object [("field", .string "id"), ("op", .string "="),
      ("value", .number (.integer ⟨9223372036854775809, by decide, by decide⟩))]) wide.criteria :=
    .leaf rfl rfl (by decide) rfl (.comparison .equal (.wide (by decide)))
  simp only [wideJson, ofJson, bind_eq_ok_iff, pure_eq_ok_iff]
  exact ⟨_, readPart_of_member rfl (by simp) (Criteria.read_eq_ok_iff.mpr hcriteria), {}, rfl, [],
    rfl, [], rfl, rfl⟩

/-- The integer is not found again. In its place stands the binary number of another integer. -/
theorem literal_altered_wide :
    ofJson wideJson = .ok wide ∧ literal? [] none wide.toJson ≠ literal? [] none wideJson ∧
      ∃ x, literal? [] none wide.toJson = some (.number (.real x)) ∧
        Binary64.ofInt 9223372036854775808 = .finite x := by
  have hrounded : Binary64.ofInt 9223372036854775809 =
      .finite ⟨false, 4890909195324358656, by decide⟩ := by decide +kernel
  have hwritten : literal? [] none wide.toJson =
      some (.number (.real ⟨false, 4890909195324358656, by decide⟩)) := by
    simp [literal?, Criteria.literal?, toJson, Criteria.toJson, wide, LeafValue.toMembers,
      Json.hasMember, Json.member?, Scalar.toJson, hrounded, Binary64.toFinite?, Json.positioned?]
  refine ⟨ofJson_wideJson, ?_, _, hwritten, by decide +kernel⟩
  rw [hwritten]
  simp [literal?, Criteria.literal?, wideJson, Json.hasMember, Json.member?, Json.positioned?]

end Document

end CriteriaQuery
