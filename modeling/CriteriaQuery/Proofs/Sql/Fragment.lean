import CriteriaQuery.Proofs.Sql.Reading
import Mathlib.Data.List.Forall2

/-!
# Fragments and the trees they are read as

A fragment is the text of a tree when its text is read as that tree and its parameters are the
tree's, in order. A fragment that joins nothing is read as one operand; one that joins several
conditions is an operand only in parentheses. Each operation of the SQL backend makes the
text of a tree.
-/

namespace CriteriaQuery

namespace Sql

/-- Tokens without the blanks between them. -/
def solid (ts : List Token) : List Token := ts.filter (· ≠ .mark ' ')

@[simp] theorem solid_append (ts ts' : List Token) : solid (ts ++ ts') = solid ts ++ solid ts' :=
  List.filter_append ts ts'

@[simp] theorem solid_cons_blank (ts : List Token) : solid (.mark ' ' :: ts) = solid ts := by
  simp [solid]

@[simp] theorem solid_cons {t : Token} (ts : List Token) (h : t ≠ .mark ' ') :
    solid (t :: ts) = t :: solid ts := by
  simp [solid, h]

@[simp] theorem solid_nil : solid [] = [] := rfl

/-- The words that start the clauses after the joins of a statement. -/
def clauseWords : List String := ["WHERE", "ORDER", "LIMIT"]

theorem isReserved_of_mem_clauseWords (d : Dialect) {w : String} (h : w ∈ clauseWords) :
    d.isReserved w = true := by
  rw [Dialect.isReserved, toUpper_eq_ofList]
  simp only [clauseWords, List.mem_cons, List.not_mem_nil, or_false] at h
  rcases h with rfl | rfl | rfl <;> cases d <;> decide

/-! ### Parts without clauses -/

/-- A part of a text is cut into tokens, `n` of them placeholders, and starts no clause. -/
structure Cut (part : List Char) (ts : List Token) (n : Nat) : Prop where
  lexes : Lexes part ts
  count : ts.count (.mark '?') = n
  goesOn : ∀ w ∈ clauseWords, .word w ∉ ts

namespace Cut

variable {part part' : List Char} {ts ts' : List Token} {m n : Nat}

theorem nil : Cut [] [] 0 where
  lexes := Lexes.nil
  count := rfl
  goesOn := by simp

/-- Two parts with a mark between them. -/
theorem mark {c : Char} (h : Cut part ts m) (hc : isMark c = true ∧ c ≠ '?')
    (h' : Cut part' ts' n) : Cut (part ++ c :: part') (ts ++ .mark c :: ts') (m + n) where
  lexes := h.lexes.mark hc.1 h'.lexes
  count := by
    rw [List.count_append, List.count_cons_of_ne (by simpa using hc.2), h.count, h'.count]
  goesOn := by
    intro w hw
    simpa using ⟨h.goesOn w hw, h'.goesOn w hw⟩

theorem blank (h : Cut part ts m) (h' : Cut part' ts' n) :
    Cut (part ++ ' ' :: part') (ts ++ .mark ' ' :: ts') (m + n) :=
  h.mark (by decide) h'

theorem comma (h : Cut part ts m) (h' : Cut part' ts' n) :
    Cut (part ++ ',' :: part') (ts ++ .mark ',' :: ts') (m + n) :=
  h.mark (by decide) h'

theorem placeholder : Cut ['?'] [.mark '?'] 1 where
  lexes := Lexes.nil.mark (by decide) Lexes.nil
  count := rfl
  goesOn := by simp

theorem word {w : String}
    (h : w.toList ≠ [] ∧ w.toList.all isWordChar = true ∧ w ∉ clauseWords) :
    Cut w.toList [.word w] 0 where
  lexes := by simpa using Lexes.word h.1 (List.all_eq_true.mp h.2.1)
  count := rfl
  goesOn := by
    intro v hv heq
    simp only [List.mem_singleton, Token.word.injEq] at heq
    exact h.2.2 (heq ▸ hv)

theorem operator {o : String} (hne : o.toList ≠ []) (ho : o.toList.all isOperatorChar = true) :
    Cut o.toList [.operator o] 0 where
  lexes := by simpa using Lexes.operator hne (List.all_eq_true.mp ho)
  count := rfl
  goesOn := by simp

theorem parenthesized (h : Cut part ts n) :
    Cut ('(' :: part ++ [')']) (.mark '(' :: ts ++ [.mark ')']) n := by
  simpa using (nil.mark (c := '(') (by decide) h).mark (c := ')') (by decide) nil

end Cut

variable (d : Dialect)

theorem identifierToken_ne_mark (identifier : String) (c : Char) :
    identifierToken d identifier ≠ .mark c := by
  unfold identifierToken
  split <;> simp

/-- A reserved word is never an identifier. -/
theorem identifierToken_ne_word {w : String} (h : d.isReserved w = true) (identifier : String) :
    identifierToken d identifier ≠ .word w := by
  unfold identifierToken
  split
  · simp
  · next hquote =>
      rintro ⟨rfl⟩
      simp [Dialect.needsQuoting, h] at hquote

theorem cut_escapeIdentifier (identifier : String) :
    Cut (d.escapeIdentifier identifier).toList [identifierToken d identifier] 0 where
  lexes := lexes_escapeIdentifier d identifier
  count := by simp [identifierToken_ne_mark]
  goesOn := by
    intro w hw
    simpa using (identifierToken_ne_word d (isReserved_of_mem_clauseWords d hw) identifier).symm

theorem cut_escape (column : ColumnRef) :
    Cut (d.escape column.column (some column.table)).toList (columnTokens d column) 0 := by
  rw [Dialect.escape_some, String.toList_append, String.toList_append, List.append_assoc]
  exact (cut_escapeIdentifier d column.table).mark (c := '.') (by decide)
    (cut_escapeIdentifier d column.column)

@[simp] theorem solid_columnTokens (column : ColumnRef) :
    solid (columnTokens d column) = columnTokens d column := by
  simp [columnTokens, solid, identifierToken_ne_mark]

/-! ### Parts that are read as trees -/

/-- Tokens that are read as one operand, wherever an operand may stand. -/
def IsOperand (ts : List Token) (p : Predicate Unit) : Prop :=
  ∀ outer level rest, readOperand d outer level (ts ++ rest) = readRest d outer (level.push p) rest

/-- Tokens that are read as a whole level, from its start on. -/
def IsLevel (ts : List Token) (p : Predicate Unit) : Prop :=
  ∃ level : Level, level.predicate = p ∧
    ∀ outer rest, readOperand d outer {} (ts ++ rest) = readRest d outer level rest

variable {d}

theorem isOperand_of_readAtom {ts : List Token} {p : Predicate Unit}
    (h : ∀ rest, readAtom d (ts ++ rest) = some (p, rest)) : IsOperand d ts p :=
  fun outer level rest => readOperand_of_readAtom d (h rest) outer level

theorem isOperand_test {column : ColumnRef} {ts : List Token} {p : Predicate Unit}
    (h : ∀ rest, readTest column (ts ++ rest) = some (p, rest)) :
    IsOperand d (columnTokens d column ++ ts) p := by
  apply isOperand_of_readAtom
  intro rest
  rw [List.append_assoc, readAtom_columnTokens, h]

theorem IsOperand.isLevel {ts : List Token} {p : Predicate Unit} (h : IsOperand d ts p) :
    IsLevel d ts p :=
  ⟨Level.push {} p, rfl, fun outer rest => h outer {} rest⟩

theorem IsLevel.parenthesized {ts : List Token} {p : Predicate Unit} (h : IsLevel d ts p) :
    IsOperand d (.mark '(' :: ts ++ [.mark ')']) p := by
  obtain ⟨inner, rfl, h⟩ := h
  intro outer level rest
  rw [List.append_assoc, List.cons_append, readOperand_open, h, List.singleton_append,
    readRest_close]

theorem IsLevel.readOperand_eq {ts : List Token} {p : Predicate Unit} (h : IsLevel d ts p) :
    readOperand d [] {} ts = some p := by
  obtain ⟨level, rfl, h⟩ := h
  have := h [] []
  rwa [List.append_nil, readRest_nil] at this

/-- The fragment is the text of the tree. -/
structure Writes (d : Dialect) (f : SqlFragment) (p : Predicate Scalar) : Prop where
  values : p.values = f.params
  /-- How the text is read alone, or between parentheses. -/
  level : ∃ ts, Cut f.text.toList ts f.params.length ∧ IsLevel d (solid ts) p.shape
  /-- How the text is read next to other conditions. -/
  operand : ∃ ts, Cut f.nested.toList ts f.params.length ∧ IsOperand d (solid ts) p.shape

namespace Writes

variable {f : SqlFragment} {p : Predicate Scalar}

/-- What joins nothing stands as it is next to other conditions. -/
theorem of_operand (ts : List Token) (hvalues : p.values = f.params) (hcompound : f.compound = false)
    (hcut : Cut f.text.toList ts f.params.length) (hoperand : IsOperand d (solid ts) p.shape) :
    Writes d f p where
  values := hvalues
  level := ⟨ts, hcut, hoperand.isLevel⟩
  operand := ⟨ts, by simpa [SqlFragment.nested, hcompound] using hcut, hoperand⟩

/-- What joins several conditions is put in parentheses. -/
theorem of_level {ts : List Token} (hvalues : p.values = f.params) (hcompound : f.compound = true)
    (hcut : Cut f.text.toList ts f.params.length) (hlevel : IsLevel d (solid ts) p.shape) :
    Writes d f p where
  values := hvalues
  level := ⟨ts, hcut, hlevel⟩
  operand := by
    refine ⟨.mark '(' :: ts ++ [.mark ')'], ?_, ?_⟩
    · simpa [SqlFragment.nested, hcompound] using hcut.parenthesized
    · simpa using hlevel.parenthesized

end Writes

/-! ### Tests -/

theorem writes_always : Writes d Sql.backend.alwaysTrue .always := by
  have hone : Cut "1".toList [.word "1"] 0 := Cut.word (by decide)
  have hequal : Cut "=".toList [.operator "="] 0 := Cut.operator (by decide) (by decide)
  refine Writes.of_operand _ rfl rfl (hone.blank (hequal.blank hone)) ?_
  apply isOperand_of_readAtom
  intro rest
  simp [readAtom, Predicate.shape, Predicate.map]

theorem writes_never : Writes d Sql.backend.alwaysFalse .never := by
  have hone : Cut "1".toList [.word "1"] 0 := Cut.word (by decide)
  have hzero : Cut "0".toList [.word "0"] 0 := Cut.word (by decide)
  have hequal : Cut "=".toList [.operator "="] 0 := Cut.operator (by decide) (by decide)
  refine Writes.of_operand _ rfl rfl (hone.blank (hequal.blank hzero)) ?_
  apply isOperand_of_readAtom
  intro rest
  simp [readAtom, Predicate.shape, Predicate.map]

/-- A column that the dialect has written. -/
def Written (d : Dialect) (column : EscapedColumn) : Prop :=
  column.text = d.escape column.column.column (some column.column.table)

/-- A column and, after a blank, what is tested of it. -/
theorem writes_test {column : ResolvedColumn} (hcolumn : Written d column.toEscapedColumn)
    {f : SqlFragment} {p : Predicate Scalar} {part : List Char} {ts : List Token}
    (htext : f.text.toList = column.text.toList ++ ' ' :: part) (hcompound : f.compound = false)
    (hvalues : p.values = f.params) (hcut : Cut part ts f.params.length)
    (hread : ∀ rest, readTest column.column (solid ts ++ rest) = some (p.shape, rest)) :
    Writes d f p := by
  refine Writes.of_operand (columnTokens d column.column ++ .mark ' ' :: ts)
    hvalues hcompound ?_ ?_
  · rw [htext, hcolumn]
    simpa using (cut_escape d column.column).blank hcut
  · rw [solid_append, solid_columnTokens, solid_cons_blank]
    exact isOperand_test hread

theorem comparison?_literal (op : Comparison) : comparison? op.literal = some op := by
  have : Operator.ofLiteral? op.literal = some (.comparison op) :=
    Operator.ofLiteral?_literal (.comparison op)
  rw [comparison?, this]

theorem writes_compare {column : ResolvedColumn} (hcolumn : Written d column.toEscapedColumn)
    (op : Comparison) (value : Scalar) :
    Writes d (Sql.backend.compare column op value) (.compare column.column op value) := by
  have hsign : Cut op.literal.toList [.operator op.literal] 0 := by
    apply Cut.operator
    · cases op <;> decide
    · cases op <;> decide
  refine writes_test hcolumn ?_ rfl rfl (hsign.blank Cut.placeholder) ?_
  · simp [Sql.backend, Sql.compare]
  · intro rest
    simp [readTest, comparison?_literal, Predicate.shape, Predicate.map]

theorem writes_nullTest {column : ResolvedColumn} (hcolumn : Written d column.toEscapedColumn)
    (negated : Bool) :
    Writes d (Sql.backend.nullTest column negated) (.isNull column.column negated) := by
  have his : Cut "IS".toList [.word "IS"] 0 := Cut.word (by decide)
  have hnull : Cut "NULL".toList [.word "NULL"] 0 := Cut.word (by decide)
  cases negated with
  | false =>
      refine writes_test hcolumn ?_ rfl rfl (his.blank hnull) ?_
      · simp [Sql.backend, Sql.nullTest]
      · intro rest
        simp [readTest, Predicate.shape, Predicate.map]
  | true =>
      have hnot : Cut "NOT".toList [.word "NOT"] 0 := Cut.word (by decide)
      refine writes_test hcolumn ?_ rfl rfl (his.blank (hnot.blank hnull)) ?_
      · simp [Sql.backend, Sql.nullTest]
      · intro rest
        simp [readTest, Predicate.shape, Predicate.map]

theorem writes_pattern {column : ResolvedColumn} (hcolumn : Written d column.toEscapedColumn)
    (anchor : Anchor) (literal : String) :
    Writes d (Sql.backend.pattern column anchor literal)
      (.like column.column (.text (anchor.wrap (Like.escaped Sql.likeEscape literal)))) := by
  have hlike : Cut "LIKE".toList [.word "LIKE"] 0 := Cut.word (by decide)
  refine writes_test hcolumn ?_ rfl rfl (hlike.blank Cut.placeholder) ?_
  · simp [Sql.backend, Sql.pattern]
  · intro rest
    simp [readTest, Predicate.shape, Predicate.map]

/-- The tokens of `n` placeholders in a list. -/
def placeholderTokens : Nat → List Token
  | 0 => []
  | 1 => [.mark '?']
  | n + 2 => .mark '?' :: .mark ',' :: .mark ' ' :: placeholderTokens (n + 1)

theorem cut_placeholders {α : Type} (values : List α) :
    Cut (Text.joined ", " (values.map fun _ => "?")).toList (placeholderTokens values.length)
      values.length := by
  induction values with
  | nil => exact Cut.nil
  | cons v values ih =>
      cases values with
      | nil => simpa [placeholderTokens] using Cut.placeholder
      | cons w values =>
          have hcut := Cut.placeholder.comma (Cut.nil.blank ih)
          simpa [Text.joined_cons_cons, placeholderTokens, Nat.add_comm 1] using hcut

theorem readPlaceholders_placeholderTokens (n : Nat) (rest : List Token) :
    readPlaceholders (solid (placeholderTokens (n + 1)) ++ .mark ')' :: rest) =
      some (n + 1, rest) := by
  induction n with
  | zero => simp [placeholderTokens, readPlaceholders]
  | succ n ih => simp [placeholderTokens, readPlaceholders, ih]

theorem writes_membership {column : ResolvedColumn} (hcolumn : Written d column.toEscapedColumn)
    {values : List Scalar} (hne : values ≠ []) (negated : Bool) :
    Writes d (Sql.backend.membership column values negated)
      (.isIn column.column values negated) := by
  have hin : Cut "IN".toList [.word "IN"] 0 := Cut.word (by decide)
  have hlist := (cut_placeholders values).parenthesized
  have hread : ∀ rest, readPlaceholders
      (solid (placeholderTokens values.length) ++ .mark ')' :: rest) =
        some (values.length, rest) := by
    intro rest
    obtain ⟨v, values, rfl⟩ := List.exists_cons_of_ne_nil hne
    exact readPlaceholders_placeholderTokens values.length rest
  cases negated with
  | false =>
      have hcut := hin.blank hlist
      rw [Nat.zero_add] at hcut
      refine writes_test hcolumn ?_ rfl rfl hcut ?_
      · simp [Sql.backend, Sql.membership]
      · intro rest
        simp [readTest, hread, Predicate.shape, Predicate.map, List.map_const']
  | true =>
      have hnot : Cut "NOT".toList [.word "NOT"] 0 := Cut.word (by decide)
      have hcut := hnot.blank (hin.blank hlist)
      rw [Nat.zero_add, Nat.zero_add] at hcut
      refine writes_test hcolumn ?_ rfl rfl hcut ?_
      · simp [Sql.backend, Sql.membership]
      · intro rest
        simp [readTest, hread, Predicate.shape, Predicate.map, List.map_const']

/-! ### Connectives -/

/-- Fragments with a connector between each two neighbours are read one after the other. -/
theorem exists_cut_joined (c : Connector) {fs : List SqlFragment} {ps : List (Predicate Scalar)}
    (h : List.Forall₂ (Writes d) fs ps) (hne : fs ≠ []) :
    ∃ ts, Cut (Text.joined (" " ++ c.literal ++ " ") (fs.map SqlFragment.nested)).toList ts
        (fs.flatMap SqlFragment.params).length ∧
      ∀ outer level rest, readOperand d outer level (solid ts ++ rest) =
        readRest d outer (level.pushAll c (ps.map Predicate.shape)) rest := by
  induction h with
  | nil => exact absurd rfl hne
  | @cons f p fs ps hfirst htail ih =>
      obtain ⟨ts, hcut, hread⟩ := hfirst.operand
      cases htail with
      | nil => exact ⟨ts, by simpa using hcut, hread⟩
      | @cons g q fs ps hg htail =>
          obtain ⟨ts', hcut', hread'⟩ := ih (List.cons_ne_nil g fs)
          have hword : Cut c.literal.toList [.word c.literal] 0 := by
            apply Cut.word
            cases c <;> decide
          have hall := hcut.blank (hword.blank hcut')
          refine ⟨_, by simpa [Text.joined_cons_cons] using hall, ?_⟩
          intro outer level rest
          simp only [solid_append, solid_cons_blank, List.append_assoc]
          rw [hread]
          simp only [ne_eq, reduceCtorEq, not_false_eq_true, solid_cons, List.cons_append,
            readRest_connector]
          exact hread' _ _ _

theorem map_connective {α β : Type} (g : α → β) (c : Connector) (ps : List (Predicate α)) :
    (connective c ps).map g = connective c (ps.map (Predicate.map g)) := by
  cases c <;> simp [connective, Predicate.map, Predicate.mapAll_eq_map]

theorem values_connective {α : Type} (c : Connector) (ps : List (Predicate α)) :
    (connective c ps).values = ps.flatMap Predicate.values := by
  cases c <;> simp [connective, Predicate.values, Predicate.valuesAll_eq_flatMap]

theorem flatMap_values {fs : List SqlFragment} {ps : List (Predicate Scalar)}
    (h : List.Forall₂ (Writes d) fs ps) :
    ps.flatMap Predicate.values = fs.flatMap SqlFragment.params := by
  induction h with
  | nil => rfl
  | cons hfirst _ ih => rw [List.flatMap_cons, List.flatMap_cons, hfirst.values, ih]

theorem writes_combine (c : Connector) {fs : List SqlFragment} {ps : List (Predicate Scalar)}
    (h : List.Forall₂ (Writes d) fs ps) (hlen : 2 ≤ fs.length) :
    Writes d (Sql.backend.combine c fs) (connective c ps) := by
  have hne : fs ≠ [] := by
    rintro rfl
    simp at hlen
  obtain ⟨ts, hcut, hread⟩ := exists_cut_joined c h hne
  refine Writes.of_level ?_ rfl hcut ⟨_, ?_, fun outer => hread outer {}⟩
  · rw [values_connective]
    exact flatMap_values h
  · rw [Predicate.shape, map_connective]
    refine predicate_pushAll c ?_
    rw [List.length_map, ← h.length_eq]
    exact hlen

end Sql

end CriteriaQuery
