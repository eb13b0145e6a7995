import CriteriaQuery.Proofs.Sql.Predicate

/-!
# Predicate text that is read back

Every test that the SQL backend writes is read back as one operand, and operands joined by a
connector are read back as the connective of what they are, alone, inside parentheses, or at
the start of a longer text.
-/

namespace CriteriaQuery

namespace Sql

variable (d : Dialect)

theorem toUpper_eq_ofList (s : String) : s.toUpper = String.ofList (s.toList.map Char.toUpper) := by
  rw [← String.toList_inj, String.toUpper, String.toList_map, String.toList_ofList]

/-- A text without upper-case letters is its own lower case. -/
theorem toLower_eq_self {s : String} (h : s.toList.any Char.isUpper = false) : s.toLower = s := by
  have hlower : ∀ c ∈ s.toList, c.toLower = c := by
    intro c hc
    have hsmall : c.isUpper = false := Bool.eq_false_iff.mpr (List.any_eq_false.mp h c hc)
    exact dif_neg (of_decide_eq_false hsmall)
  apply String.toList_inj.mp
  calc
    s.toLower.toList = s.toList.map Char.toLower := String.toList_map
    _ = s.toList.map id := List.map_congr_left hlower
    _ = s.toList := List.map_id _

/-- A dialect reads the identifier that it writes. -/
theorem identifier?_identifierToken (identifier : String) :
    identifier? d (identifierToken d identifier) = some identifier := by
  by_cases h : d.needsQuoting identifier = true
  · simp [identifierToken, h, identifier?]
  · rw [identifierToken, if_neg h]
    simp only [Dialect.needsQuoting, Bool.or_eq_true, Bool.not_eq_true', not_or,
      Bool.not_eq_true, Bool.not_eq_false] at h
    obtain ⟨⟨hreserved, hplain⟩, hfolds⟩ := h
    cases d with
    | mysql => simp [identifier?, hplain, hreserved]
    | postgres => simp [identifier?, hplain, hreserved, toLower_eq_self hfolds]

theorem readColumn_columnTokens (column : ColumnRef) (rest : List Token) :
    readColumn d (columnTokens d column ++ rest) = some (column, rest) := by
  simp [columnTokens, readColumn, identifier?_identifierToken]

theorem readAtom_columnTokens (column : ColumnRef) (rest : List Token) :
    readAtom d (columnTokens d column ++ rest) = readTest column rest := by
  have hcolumn := readColumn_columnTokens d column rest
  simp only [columnTokens, List.cons_append, List.nil_append] at hcolumn ⊢
  unfold readAtom
  split
  · next h => simp at h
  · next h => simp at h
  · rw [hcolumn]
    rfl

/-! ### Reading on -/

@[simp] theorem readOperand_open (outer : List Level) (level : Level) (rest : List Token) :
    readOperand d outer level (.mark '(' :: rest) = readOperand d (level :: outer) {} rest := by
  rw [readOperand]

theorem readAtom_mark (c : Char) (rest : List Token) : readAtom d (.mark c :: rest) = none := by
  have hcolumn : readColumn d (.mark c :: rest) = none := by
    unfold readColumn
    split
    · next table name rest' h =>
        obtain ⟨rfl, -⟩ := List.cons.inj h
        simp [identifier?]
    · rfl
  simp [readAtom, hcolumn]

theorem readOperand_of_readAtom {ts rest : List Token} {p : Predicate Unit}
    (h : readAtom d ts = some (p, rest)) (outer : List Level) (level : Level) :
    readOperand d outer level ts = readRest d outer (level.push p) rest := by
  unfold readOperand
  split
  · next rest' => simp [readAtom_mark] at h
  · split
    · next p' rest' h' =>
        obtain ⟨rfl, rfl⟩ : p' = p ∧ rest' = rest := by simpa [h] using h'.symm
        rfl
    · next h' => simp [h] at h'

@[simp] theorem readRest_nil (level : Level) : readRest d [] level [] = some level.predicate := by
  rw [readRest]
  rfl

@[simp] theorem readRest_close (around : Level) (outer : List Level) (level : Level)
    (rest : List Token) : readRest d (around :: outer) level (.mark ')' :: rest) =
      readRest d outer (around.push level.predicate) rest := by
  rw [readRest]

/-- The level in which the operand after a connector is read. -/
def Level.next (l : Level) : Connector → Level
  | .and => l
  | .or => l.alternative

@[simp] theorem readRest_connector (outer : List Level) (level : Level) (c : Connector)
    (rest : List Token) : readRest d outer level (.word c.literal :: rest) =
      readOperand d outer (level.next c) rest := by
  cases c with
  | and => rw [Connector.literal, readRest, Level.next]
  | or => rw [Connector.literal, readRest, Level.next]

/-- The level after operands with a connector between each two neighbours. -/
def Level.pushAll (c : Connector) (l : Level) : List (Predicate Unit) → Level
  | [] => l
  | [p] => l.push p
  | p :: q :: ps => pushAll c ((l.push p).next c) (q :: ps)

/-- The connective of a connector. -/
def connective {α : Type} : Connector → List (Predicate α) → Predicate α
  | .and => .all
  | .or => .any

theorem pushAll_and (l : Level) (ps : List (Predicate Unit)) :
    l.pushAll .and ps = { l with current := l.current ++ ps } := by
  induction ps generalizing l with
  | nil => simp [Level.pushAll]
  | cons p ps ih =>
      cases ps with
      | nil => rfl
      | cons q ps => simp [Level.pushAll, Level.next, ih, Level.push]

theorem pushAll_or (closed : List (Predicate Unit)) {ps : List (Predicate Unit)} (hne : ps ≠ []) :
    (Level.pushAll .or ⟨closed, []⟩ ps).alternative.closed = closed ++ ps := by
  induction ps generalizing closed with
  | nil => exact absurd rfl hne
  | cons p ps ih =>
      cases ps with
      | nil => rfl
      | cons q ps =>
          have := ih (closed ++ [p]) (List.cons_ne_nil q ps)
          simpa [Level.pushAll, Level.next, Level.push, Level.alternative, Predicate.gather]
            using this

/-- Operands at the start of a level become their connective. -/
theorem predicate_pushAll (c : Connector) {ps : List (Predicate Unit)} (h : 2 ≤ ps.length) :
    (Level.pushAll c {} ps).predicate = connective c ps := by
  have hgather : ∀ join : List (Predicate Unit) → Predicate Unit,
      Predicate.gather join ps = join ps := by
    intro join
    obtain ⟨p, q, ps, rfl⟩ : ∃ p q ps', ps = p :: q :: ps' := by
      match ps, h with
      | p :: q :: ps', _ => exact ⟨p, q, ps', rfl⟩
    rfl
  cases c with
  | and =>
      rw [pushAll_and, Level.predicate]
      simpa [Predicate.gather, connective] using hgather .all
  | or =>
      have hne : ps ≠ [] := by rintro rfl; simp at h
      have := pushAll_or [] hne
      rw [Level.predicate]
      change Predicate.gather .any (Level.pushAll .or {} ps).alternative.closed = _
      rw [this, List.nil_append, hgather]
      rfl

end Sql

end CriteriaQuery
