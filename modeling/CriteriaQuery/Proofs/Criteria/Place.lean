import CriteriaQuery.Proofs.Criteria.Grammar

/-!
# Where criteria are refused

A value that denotes no tree has a first place where it goes wrong: a node that is flawed itself,
reached through groups with a connector, and with nothing but trees among the children before it.
What a flawed node is, is said by rules. The reader reports this flaw with its place, and where the
value stands in the document changes nothing in the report but the beginning of the place.

## Implementation notes

That a value denotes a tree or has such a place is shown first, from the rules. The reader then
only has to be followed down to the place.
-/

namespace CriteriaQuery

namespace Criteria

/-! ### Flaws of a node -/

/-- A part of a node. -/
inductive NodePart
  | whole
  | connector
  | children
  | field
  | op
  | value
  | item (index : Nat)

/-- How the place of a part is written, after that of its node. -/
def NodePart.text : NodePart → String
  | .whole => ""
  | .connector => ".connector"
  | .children => ".children"
  | .field => ".field"
  | .op => ".op"
  | .value => ".value"
  | .item index => ".value" ++ "[" ++ toString index ++ "]"

/-- What is wrong with a node, wherever it stands. -/
inductive NodeFlaw
  | unknownOperator (token : String)
  | malformed (part : NodePart) (fault : Fault)
  | misfitValue (op : Operator) (expected : Arity) (found : FoundValue)

/-- The report of a flaw in a node at a place. -/
def NodeFlaw.error (path : String) : NodeFlaw → DocumentError
  | .unknownOperator token => .unknownOperator token
  | .malformed part fault => .malformed (path ++ part.text) fault
  | .misfitValue op expected found =>
    .misfitValue (path ++ NodePart.value.text) op expected found

/-- A value of the shape that an arity asks for, whatever stands in a list. -/
inductive Fits : Arity → Json → Prop
  | none : Fits .none .null
  | one {value : Json} {v : Scalar} (h : Scalar.Denotes value v) : Fits .one value
  | many (items : List Json) : Fits .many (.array items)

/-- The flaw of a leaf's value, which is null when it is absent: it has another shape, or something
in the list is no scalar, of which the first counts. -/
inductive ValueFlawed (op : Operator) : Arity → Json → NodeFlaw → Prop
  | misfit {expected : Arity} {value : Json} (h : ¬ Fits expected value) :
    ValueFlawed op expected value (.misfitValue op expected (.ofJson value))
  | item {items : List Json} {index : Nat} {item : Json} (hitem : items[index]? = some item)
    (hscalar : ∀ v, ¬ Scalar.Denotes item v)
    (hbefore : ∀ item' ∈ items.take index, ∃ v, Scalar.Denotes item' v) :
    ValueFlawed op .many (.array items) (.malformed (.item index) .expectedScalar)

section Members

variable (members : List (String × Json))

/-- The members name a field. -/
def Named : Prop :=
  ∃ name, Json.member? "field" members = some (.string name) ∧ Text.isBlank name = false

/-- The flaw of a node with a connector. Its children are not looked into. -/
inductive GroupFlawed : NodeFlaw → Prop
  | connectorKind {value : Json} (h : Json.member? "connector" members = some value)
    (hkind : ∀ token, value ≠ .string token) :
    GroupFlawed (.malformed .connector .expectedString)
  | connectorUnknown {token : String} (h : Json.member? "connector" members = some (.string token))
    (hunknown : ∀ op : Operator, op.literal ≠ token) : GroupFlawed (.unknownOperator token)
  | connectorRole {op : Operator} (h : Json.member? "connector" members = some (.string op.literal))
    (hrole : op.connector? = none) : GroupFlawed (.malformed .connector (.notConnector op))
  | children {connector : Connector} {value : Json}
    (hconnector : Json.member? "connector" members = some (.string connector.literal))
    (h : Json.member? "children" members = some value) (hnull : value ≠ .null)
    (hkind : ∀ items, value ≠ .array items) : GroupFlawed (.malformed .children .expectedArray)

/-- The flaw of a leaf: that of its field, else that of its operator, else that of its value. -/
inductive LeafFlawed : NodeFlaw → Prop
  | fieldMissing (h : Json.member? "field" members = none) :
    LeafFlawed (.malformed .field .missingKey)
  | fieldKind {value : Json} (h : Json.member? "field" members = some value)
    (hkind : ∀ name, value ≠ .string name) : LeafFlawed (.malformed .field .expectedString)
  | fieldBlank {name : String} (h : Json.member? "field" members = some (.string name))
    (hblank : Text.isBlank name = true) : LeafFlawed (.malformed .field .blankFieldName)
  | opMissing (hfield : Named members) (h : Json.member? "op" members = none) :
    LeafFlawed (.malformed .op .missingKey)
  | opKind {value : Json} (hfield : Named members) (h : Json.member? "op" members = some value)
    (hkind : ∀ token, value ≠ .string token) : LeafFlawed (.malformed .op .expectedString)
  | opUnknown {token : String} (hfield : Named members)
    (h : Json.member? "op" members = some (.string token))
    (hunknown : ∀ op : Operator, op.literal ≠ token) : LeafFlawed (.unknownOperator token)
  | opRole {op : Operator} (hfield : Named members)
    (h : Json.member? "op" members = some (.string op.literal)) (hrole : op.arity? = none) :
    LeafFlawed (.malformed .op (.connectorOnLeaf op))
  | value {op : Operator} {expected : Arity} {flaw : NodeFlaw} (hfield : Named members)
    (hop : Json.member? "op" members = some (.string op.literal))
    (harity : op.arity? = some expected)
    (h : ValueFlawed op expected ((Json.member? "value" members).getD .null) flaw) :
    LeafFlawed flaw

end Members

/-- The flaw of a node itself, apart from its children. -/
inductive Flawed : Json → NodeFlaw → Prop
  | kind {value : Json} (h : ∀ members, value ≠ .object members) :
    Flawed value (.malformed .whole .expectedObject)
  | group {members : List (String × Json)} {flaw : NodeFlaw} (h : GroupFlawed members flaw) :
    Flawed (.object members) flaw
  | neither {members : List (String × Json)}
    (hgroup : Json.member? "connector" members = none)
    (hfield : Json.member? "field" members = none) (hop : Json.member? "op" members = none) :
    Flawed (.object members) (.malformed .whole .neitherGroupNorLeaf)
  | leaf {members : List (String × Json)} {flaw : NodeFlaw}
    (hgroup : Json.member? "connector" members = none)
    (hleaf : Json.member? "field" members ≠ none ∨ Json.member? "op" members ≠ none)
    (h : LeafFlawed members flaw) : Flawed (.object members) flaw

/-! ### The way to a node -/

/-- An address, as it is written after the place where it starts: which child to take each time. -/
def place : List Nat → String
  | [] => ""
  | i :: address => ".children" ++ "[" ++ toString i ++ "]" ++ place address

example : "criteria" ++ place [1, 0] ++ (NodePart.item 2).text =
    "criteria.children[1].children[0].value[2]" := by decide

/-- A node is reached at an address. Each node on the way is a group with a connector, and the
children before the one that is taken denote trees. -/
inductive Leads : Json → List Nat → Json → Prop
  | here (value : Json) : Leads value [] value
  | child {members : List (String × Json)} {connector : Connector} {items : List Json} {i : Nat}
    {item node : Json} {address : List Nat}
    (hconnector : Json.member? "connector" members = some (.string connector.literal))
    (hchildren : Json.member? "children" members = some (.array items))
    (hitem : items[i]? = some item)
    (hbefore : ∀ item' ∈ items.take i, ∃ tree, Denotes item' tree) (h : Leads item address node) :
    Leads (.object members) (i :: address) node

/-- A value has a node that is flawed, and nothing is wrong before it. -/
def Refused (value : Json) : Prop :=
  ∃ address node flaw, Leads value address node ∧ Flawed node flaw

theorem refused_of_flawed {value : Json} {flaw : NodeFlaw} (h : Flawed value flaw) :
    Refused value := ⟨[], value, flaw, .here value, h⟩

/-! ### Every value denotes a tree or is refused -/

/-- All members of a list are of one kind, or there is a first one of another. -/
theorem forall_or_exists_first {α : Type} {P Q : α → Prop} {as : List α}
    (h : ∀ a ∈ as, P a ∨ Q a) :
    (∀ a ∈ as, P a) ∨ ∃ i a, as[i]? = some a ∧ Q a ∧ ∀ a' ∈ as.take i, P a' := by
  induction as with
  | nil => exact Or.inl (by simp)
  | cons a as ih =>
      rcases h a List.mem_cons_self with ha | ha
      · rcases ih fun a' ha' => h a' (List.mem_cons_of_mem a ha') with hall | ⟨i, a', hi, hQ, hP⟩
        · exact Or.inl (List.forall_mem_cons.mpr ⟨ha, hall⟩)
        · exact Or.inr ⟨i + 1, a', hi, hQ, List.forall_mem_cons.mpr ⟨ha, hP⟩⟩
      · exact Or.inr ⟨0, a, rfl, ha, by simp⟩

theorem exists_forall₂ {α β : Type} {R : α → β → Prop} {as : List α}
    (h : ∀ a ∈ as, ∃ b, R a b) : ∃ bs, List.Forall₂ R as bs := by
  induction as with
  | nil => exact ⟨[], .nil⟩
  | cons a as ih =>
      obtain ⟨b, hb⟩ := h a List.mem_cons_self
      obtain ⟨bs, hbs⟩ := ih fun a' ha' => h a' (List.mem_cons_of_mem a ha')
      exact ⟨b :: bs, .cons hb hbs⟩

theorem denotes_or_valueFlawed {op : Operator} {expected : Arity}
    (hop : op.arity? = some expected) (raw : Option Json) :
    (∃ value, LeafValue.Denotes op raw value) ∨
      ∃ flaw, ValueFlawed op expected (raw.getD .null) flaw := by
  -- the operators of one arity have one shape of value in common, as the reader has it
  have hread : ∀ value, LeafValue.Denotes op raw value ↔
      LeafValue.read op expected (raw.getD .null) "" = .ok value :=
    fun value => (LeafValue.read_eq_ok_iff hop).symm
  simp only [hread]
  generalize raw.getD .null = value
  by_cases hfits : Fits expected value
  · cases hfits with
    | none => exact Or.inl ⟨.absent, LeafValue.read_none_eq_ok_iff.mpr ⟨rfl, rfl⟩⟩
    | one h => exact Or.inl ⟨.one _, LeafValue.read_one_eq_ok_iff.mpr ⟨_, h, rfl⟩⟩
    | many items =>
        have hitems : ∀ item ∈ items,
            (∃ v, Scalar.Denotes item v) ∨ ∀ v, ¬ Scalar.Denotes item v :=
          fun item _ => by simpa using Classical.em (∃ v, Scalar.Denotes item v)
        rcases forall_or_exists_first hitems with hall | ⟨i, item, hitem, hscalar, hbefore⟩
        · obtain ⟨vs, hvs⟩ := exists_forall₂ hall
          exact Or.inl ⟨.many vs, LeafValue.read_many_eq_ok_iff.mpr ⟨vs, .array hvs, rfl⟩⟩
        · exact Or.inr ⟨_, .item hitem hscalar hbefore⟩
  · exact Or.inr ⟨_, .misfit hfits⟩

section Members

variable {members : List (String × Json)}

/-- A string is the literal of an operator, or of none. -/
theorem exists_literal_or (token : String) :
    (∃ op : Operator, op.literal = token) ∨ ∀ op : Operator, op.literal ≠ token := by
  simpa using Classical.em (∃ op : Operator, op.literal = token)

theorem named_or_leafFlawed (members : List (String × Json)) :
    Named members ∨ ∃ flaw, LeafFlawed members flaw := by
  cases hfield : Json.member? "field" members with
  | none => exact Or.inr ⟨_, .fieldMissing hfield⟩
  | some value =>
      cases value with
      | string name =>
          cases hblank : Text.isBlank name with
          | false => exact Or.inl ⟨name, hfield, hblank⟩
          | true => exact Or.inr ⟨_, .fieldBlank hfield hblank⟩
      | _ => exact Or.inr ⟨_, .fieldKind hfield (by simp)⟩

theorem denotes_or_leafFlawed (hgroup : Json.member? "connector" members = none) :
    (∃ tree, Denotes (.object members) tree) ∨ ∃ flaw, LeafFlawed members flaw := by
  rcases named_or_leafFlawed members with hnamed | hflawed
  · cases hop : Json.member? "op" members with
    | none => exact Or.inr ⟨_, .opMissing hnamed hop⟩
    | some value =>
        cases value with
        | string token =>
            rcases exists_literal_or token with ⟨op, rfl⟩ | hunknown
            · cases harity : op.arity? with
              | none => exact Or.inr ⟨_, .opRole hnamed hop harity⟩
              | some expected =>
                  rcases denotes_or_valueFlawed harity (Json.member? "value" members) with
                    ⟨value, hvalue⟩ | ⟨flaw, hflaw⟩
                  · obtain ⟨name, hname, hblank⟩ := hnamed
                    exact Or.inl ⟨_, .leaf hgroup hname hblank hop hvalue⟩
                  · exact Or.inr ⟨flaw, .value hnamed hop harity hflaw⟩
            · exact Or.inr ⟨_, .opUnknown hnamed hop hunknown⟩
        | _ => exact Or.inr ⟨_, .opKind hnamed hop (by simp)⟩
  · exact Or.inr hflawed

theorem connector_or_groupFlawed {value : Json}
    (hmember : Json.member? "connector" members = some value) :
    (∃ connector : Connector,
      Json.member? "connector" members = some (.string connector.literal)) ∨
      ∃ flaw, GroupFlawed members flaw := by
  cases value with
  | string token =>
      rcases exists_literal_or token with ⟨op, rfl⟩ | hunknown
      · cases hrole : op.connector? with
        | none => exact Or.inr ⟨_, .connectorRole hmember hrole⟩
        | some connector =>
            obtain rfl := connector?_eq_some_iff.mp hrole
            exact Or.inl ⟨connector, hmember⟩
      · exact Or.inr ⟨_, .connectorUnknown hmember hunknown⟩
  | _ => exact Or.inr ⟨_, .connectorKind hmember (by simp)⟩

/-- A group denotes a tree or is refused, if this is so of its children. -/
theorem group_denotes_or_refused {connector : Connector}
    (hconnector : Json.member? "connector" members = some (.string connector.literal))
    (hitems : ∀ items, Json.member? "children" members = some (.array items) → ∀ item ∈ items,
      (∃ tree, Denotes item tree) ∨ Refused item) :
    (∃ tree, Denotes (.object members) tree) ∨ Refused (.object members) := by
  cases hchildren : Json.member? "children" members with
  | none => exact Or.inl ⟨.group connector [], .group hconnector (hchildren ▸ .absent)⟩
  | some value =>
      cases value with
      | null => exact Or.inl ⟨.group connector [], .group hconnector (hchildren ▸ .null)⟩
      | array items =>
          rcases forall_or_exists_first (hitems items hchildren) with
            hall | ⟨i, item, hitem, ⟨address, node, flaw, hleads, hflawed⟩, hbefore⟩
          · obtain ⟨trees, htrees⟩ := exists_forall₂ hall
            exact Or.inl ⟨.group connector trees,
              .group hconnector (hchildren ▸ .present (.array htrees))⟩
          · exact Or.inr ⟨i :: address, node, flaw,
              .child hconnector hchildren hitem hbefore hleads, hflawed⟩
      | _ =>
          exact Or.inr
            (refused_of_flawed (.group (.children hconnector hchildren (by simp) (by simp))))

end Members

/-- Every value denotes a tree or is refused. -/
theorem denotes_or_refused (value : Json) : (∃ tree, Denotes value tree) ∨ Refused value := by
  cases value with
  | object members =>
      cases hmember : Json.member? "connector" members with
      | none =>
          by_cases hleaf : Json.member? "field" members ≠ none ∨ Json.member? "op" members ≠ none
          · rcases denotes_or_leafFlawed hmember with hdenotes | ⟨flaw, hflaw⟩
            · exact Or.inl hdenotes
            · exact Or.inr (refused_of_flawed (.leaf hmember hleaf hflaw))
          · obtain ⟨hfield, hop⟩ := not_or.mp hleaf
            exact Or.inr (refused_of_flawed
              (.neither hmember (not_not.mp hfield) (not_not.mp hop)))
      | some token =>
          rcases connector_or_groupFlawed hmember with ⟨connector, hconnector⟩ | ⟨flaw, hflaw⟩
          · apply group_denotes_or_refused hconnector
            intro items hitems item hitem
            exact denotes_or_refused item
          · exact Or.inr (refused_of_flawed (.group hflaw))
  | _ => exact Or.inr (refused_of_flawed (.kind (by simp)))
termination_by sizeOf value
decreasing_by
  have hmembers := Json.sizeOf_member? hitems
  have hitem := List.sizeOf_lt_of_mem hitem
  simp only [Json.array.sizeOf_spec, Json.object.sizeOf_spec] at hmembers ⊢
  omega

/-! ### What the reader reports -/

section Reports

variable {members : List (String × Json)} {path : String} {flaw : NodeFlaw}

theorem readToken_of_unknown {token : String} (h : ∀ op : Operator, op.literal ≠ token) :
    readToken token = .error (.unknownOperator token) := by
  have hnone : Operator.ofLiteral? token = none := by
    apply Option.eq_none_iff_forall_ne_some.mpr
    exact fun op hop => h op (Operator.ofLiteral?_eq_some_iff.mp hop)
  rw [readToken, hnone]

theorem ofJson?_eq_none {value : Json} (h : ∀ v, ¬ Scalar.Denotes value v) :
    Scalar.ofJson? value = none := by
  apply Option.eq_none_iff_forall_ne_some.mpr
  exact fun v hv => h v (Scalar.ofJson?_eq_some_iff.mp hv)

/-- The first thing in a list that is no scalar is reported with its position. -/
theorem readScalars_of_first {items : List Json} {start index : Nat} {item : Json}
    (hitem : items[index]? = some item) (hscalar : ∀ v, ¬ Scalar.Denotes item v)
    (hbefore : ∀ item' ∈ items.take index, ∃ v, Scalar.Denotes item' v) :
    LeafValue.readScalars path start items =
      .error (.malformed (path ++ "[" ++ toString (start + index) ++ "]") .expectedScalar) := by
  induction items generalizing start index with
  | nil => simp at hitem
  | cons first items ih =>
      cases index with
      | zero =>
          obtain rfl : first = item := by simpa using hitem
          rw [LeafValue.readScalars, ofJson?_eq_none hscalar]
          rfl
      | succ index =>
          rw [List.take_succ_cons, List.forall_mem_cons] at hbefore
          obtain ⟨⟨v, hv⟩, hbefore⟩ := hbefore
          rw [LeafValue.readScalars, Scalar.ofJson?_eq_some_iff.mpr hv]
          dsimp only
          have hrest : LeafValue.readScalars path (start + 1) items =
              .error (.malformed (path ++ "[" ++ toString (start + 1 + index) ++ "]")
                .expectedScalar) := ih (by simpa using hitem) hbefore
          rw [hrest, Nat.add_assoc, Nat.add_comm 1 index]
          rfl

theorem read_of_valueFlawed {op : Operator} {expected : Arity} {value : Json}
    (h : ValueFlawed op expected value flaw) :
    LeafValue.read op expected value (path ++ ".value") = .error (flaw.error path) := by
  cases h with
  | misfit hfits =>
      cases expected with
      | none =>
          cases value with
          | null => exact absurd .none hfits
          | _ => rfl
      | one =>
          rw [LeafValue.read, ofJson?_eq_none fun v hv => hfits (.one hv)]
          rfl
      | many =>
          cases value with
          | array items => exact absurd (.many items) hfits
          | _ => rfl
  | item hitem hscalar hbefore =>
      rw [LeafValue.read, readScalars_of_first hitem hscalar hbefore, Nat.zero_add]
      simp only [Except.map, NodeFlaw.error, NodePart.text, String.append_assoc]

/-! #### Leaves -/

theorem readLeaf_of_field {e : DocumentError} (h : readField members path = .error e) :
    readLeaf members path = .error e := by
  rw [readLeaf, h]
  rfl

theorem readLeaf_of_op {e : DocumentError} (hfield : Named members)
    (h : readOperator members path = .error e) : readLeaf members path = .error e := by
  obtain ⟨name, hname, hblank⟩ := hfield
  rw [readLeaf, readField_eq_ok_iff.mpr ⟨hname, hblank⟩, h]
  rfl

theorem readLeaf_of_value {op : Operator} {expected : Arity} {e : DocumentError}
    (hfield : Named members) (hop : readOperator members path = .ok (op, expected))
    (h : LeafValue.read op expected ((Json.member? "value" members).getD .null) (path ++ ".value") =
      .error e) : readLeaf members path = .error e := by
  obtain ⟨name, hname, hblank⟩ := hfield
  rw [readLeaf, readField_eq_ok_iff.mpr ⟨hname, hblank⟩, hop]
  change LeafValue.read op expected _ _ >>= _ = _
  rw [h]
  rfl

/-- A node with a field or an operator, but no connector, is read as a leaf. -/
theorem read_leaf (hgroup : Json.member? "connector" members = none)
    (hleaf : Json.member? "field" members ≠ none ∨ Json.member? "op" members ≠ none) :
    read (.object members) path = readLeaf members path := by
  rw [read, if_neg (by simp [Json.hasMember, hgroup]),
    if_pos (by simpa [Json.hasMember, Option.isSome_iff_ne_none] using hleaf)]

theorem readLeaf_of_leafFlawed (h : LeafFlawed members flaw) :
    readLeaf members path = .error (flaw.error path) := by
  cases h with
  | fieldMissing h =>
      apply readLeaf_of_field
      rw [readField, h]
      rfl
  | @fieldKind value h hkind =>
      apply readLeaf_of_field
      rw [readField, h]
      cases value with
      | string name => exact absurd rfl (hkind name)
      | _ => rfl
  | fieldBlank h hblank =>
      apply readLeaf_of_field
      rw [readField, h]
      dsimp only
      rw [if_pos hblank]
      rfl
  | opMissing hfield h =>
      apply readLeaf_of_op hfield
      rw [readOperator, h]
      rfl
  | @opKind value hfield h hkind =>
      apply readLeaf_of_op hfield
      rw [readOperator, h]
      cases value with
      | string token => exact absurd rfl (hkind token)
      | _ => rfl
  | opUnknown hfield h hunknown =>
      apply readLeaf_of_op hfield
      rw [readOperator, h]
      dsimp only
      rw [readToken_of_unknown hunknown]
      rfl
  | opRole hfield h hrole =>
      apply readLeaf_of_op hfield
      rw [readOperator, h]
      dsimp only
      rw [readToken_eq_ok_iff.mpr rfl]
      simp only [bind, Except.bind, hrole]
      rfl
  | value hfield hop harity h =>
      apply readLeaf_of_value hfield (readOperator_eq_ok_iff.mpr ⟨hop, harity⟩)
      exact read_of_valueFlawed h

/-! #### Groups -/

theorem read_group_of_connector {e : DocumentError} {value : Json}
    (hmember : Json.member? "connector" members = some value)
    (h : readConnector members path = .error e) : read (.object members) path = .error e := by
  rw [read, if_pos (by simp [Json.hasMember, hmember]), h]
  rfl

/-- The children of a group are read at their places. -/
theorem read_group_of_children {connector : Connector} {items : List Json}
    (hconnector : Json.member? "connector" members = some (.string connector.literal))
    (hchildren : Json.member? "children" members = some (.array items)) :
    read (.object members) path =
      (readAll items (path ++ ".children") 0).map (.group connector) := by
  rw [read, if_pos (by simp [Json.hasMember, hconnector]), readConnector_eq_ok_iff.mpr hconnector]
  simp only [bind, Except.bind]
  split
  · next hnone => simp [hnone] at hchildren
  · next hnull => simp [hnull] at hchildren
  · next items' hitems =>
      obtain rfl : items' = items := by simpa [hitems] using hchildren
      cases readAll items' (path ++ ".children") 0 <;> rfl
  · next value _ harray hvalue =>
      exact absurd (Option.some.inj (hvalue.symm.trans hchildren)) (harray items)

theorem read_of_groupFlawed (h : GroupFlawed members flaw) :
    read (.object members) path = .error (flaw.error path) := by
  cases h with
  | @connectorKind value h hkind =>
      apply read_group_of_connector h
      rw [readConnector, h]
      cases value with
      | string token => exact absurd rfl (hkind token)
      | _ => rfl
  | connectorUnknown h hunknown =>
      apply read_group_of_connector h
      rw [readConnector, h]
      dsimp only
      rw [readToken_of_unknown hunknown]
      rfl
  | connectorRole h hrole =>
      apply read_group_of_connector h
      rw [readConnector, h]
      dsimp only
      rw [readToken_eq_ok_iff.mpr rfl]
      simp only [bind, Except.bind, hrole]
      rfl
  | @children connector value hconnector h hnull hkind =>
      rw [read, if_pos (by simp [Json.hasMember, hconnector]),
        readConnector_eq_ok_iff.mpr hconnector]
      simp only [bind, Except.bind]
      split
      · next hnone => simp [hnone] at h
      · next hnull' => exact absurd (Option.some.inj (h.symm.trans hnull')) hnull
      · next items hitems => exact absurd (Option.some.inj (h.symm.trans hitems)) (hkind items)
      · rfl

/-! #### Nodes -/

/-- A node that is flawed itself is refused with its flaw, whatever its children are. -/
theorem read_of_flawed {value : Json} (h : Flawed value flaw) :
    read value path = .error (flaw.error path) := by
  cases h with
  | kind h =>
      rw [NodeFlaw.error, NodePart.text, String.append_empty]
      cases value with
      | object members => exact absurd rfl (h members)
      | _ => rw [read]; simp
  | neither hgroup hfield hop =>
      rw [read, if_neg (by simp [Json.hasMember, hgroup]),
        if_neg (by simp [Json.hasMember, hfield, hop]), NodeFlaw.error, NodePart.text,
        String.append_empty]
  | group h => exact read_of_groupFlawed h
  | leaf hgroup hleaf h => rw [read_leaf hgroup hleaf, readLeaf_of_leafFlawed h]

/-- Of a list of nodes the first one that is refused is reported, at its position. -/
theorem readAll_of_first {items : List Json} {start index : Nat} {item : Json} {e : DocumentError}
    (hitem : items[index]? = some item)
    (hbefore : ∀ item' ∈ items.take index, ∃ tree, Denotes item' tree)
    (h : read item (path ++ "[" ++ toString (start + index) ++ "]") = .error e) :
    readAll items path start = .error e := by
  induction items generalizing start index with
  | nil => simp at hitem
  | cons first items ih =>
      rw [readAll]
      cases index with
      | zero =>
          obtain rfl : first = item := by simpa using hitem
          rw [Nat.add_zero] at h
          rw [h]
          rfl
      | succ index =>
          rw [List.take_succ_cons, List.forall_mem_cons] at hbefore
          obtain ⟨⟨tree, htree⟩, hbefore⟩ := hbefore
          rw [read_eq_ok_iff.mpr htree]
          change readAll items path (start + 1) >>= _ = _
          rw [ih (by simpa using hitem) hbefore (by rwa [Nat.add_assoc, Nat.add_comm 1 index])]
          rfl

/-- A flaw is reported at the place of its node. -/
theorem Leads.read {value node : Json} {address : List Nat} (h : Leads value address node)
    (hflawed : Flawed node flaw) :
    Criteria.read value path = .error (flaw.error (path ++ place address)) := by
  induction h generalizing path with
  | here value => rw [place, String.append_empty, read_of_flawed hflawed]
  | @child members connector items i item node address hconnector hchildren hitem hbefore _ ih =>
      have hplace : path ++ place (i :: address) =
          path ++ ".children" ++ "[" ++ toString (0 + i) ++ "]" ++ place address := by
        simp only [place, Nat.zero_add, String.append_assoc]
      rw [read_group_of_children hconnector hchildren, hplace,
        readAll_of_first hitem hbefore (ih hflawed)]
      rfl

end Reports

/-- A value is refused for the flaw of a node, at the place of this node after the place where the
value itself stands, and for the first such node only: what stands before it denotes trees, which
are what the reader gives. Where the value stands makes no other difference, and none at all if a
tree is read. -/
theorem read_eq_error_iff (value : Json) (path : String) :
    (∀ e, read value path = .error e ↔ ∃ address node flaw, Leads value address node ∧
      Flawed node flaw ∧ e = flaw.error (path ++ place address) ∧
        ∀ path', read value path' = .error (flaw.error (path' ++ place address))) ∧
    ∀ tree, (read value path = .ok tree ↔ Denotes value tree) ∧
      (read value path = .ok tree ↔ ∀ path', read value path' = .ok tree) := by
  constructor
  · intro e
    constructor
    · intro h
      rcases denotes_or_refused value with ⟨tree, htree⟩ | ⟨address, node, flaw, hleads, hflawed⟩
      · rw [read_eq_ok_iff.mpr htree] at h
        cases h
      · rw [hleads.read hflawed] at h
        exact ⟨address, node, flaw, hleads, hflawed, (Except.error.inj h).symm,
          fun path' => hleads.read hflawed⟩
    · rintro ⟨address, node, flaw, hleads, hflawed, rfl, -⟩
      exact hleads.read hflawed
  · intro tree
    refine ⟨read_eq_ok_iff, ?_⟩
    constructor
    · intro h path'
      exact read_eq_ok_iff.mpr (read_eq_ok_iff.mp h)
    · intro h
      exact h path

end Criteria

end CriteriaQuery
