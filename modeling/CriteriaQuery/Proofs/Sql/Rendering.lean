import CriteriaQuery.Proofs.Compile.Sorting
import CriteriaQuery.Proofs.Sql.Agreement
import CriteriaQuery.Proofs.Sql.Statement

/-!
# Statements that are read back

The statement of every document that compiles is read back as the clauses that the document asks
for, whatever the names in the catalog are. So two statements with the same text ask for the same,
and a statement has one placeholder for each parameter.

## Implementation notes

A compiled query holds names as the dialect writes them. It is first related to the clauses whose
names are written there, and only the clauses are followed through the text.
-/

namespace CriteriaQuery

namespace Sql

variable (d : Dialect)

/-- A compiled query holds the clauses as the dialect writes them. -/
structure Renders (q : Compiled SqlFragment String) (c : Clauses) : Prop where
  columns : q.projection.map (·.text) = c.columns.map (columnText d)
  source : q.source = d.escapeIdentifier c.root
  joins : q.joins = c.joins.map (writtenJoin d)
  predicate : q.predicate.text = c.predicate
  cut : ∃ ts, Cut q.predicate.text.toList ts q.predicate.params.length
  order : q.orderBy = c.order.map (keyText d)
  limit : q.window.limit.toNat = c.limit
  offset : q.window.offset.toNat = c.offset

end Sql

namespace Scope

open Sql

variable {s : Scope}

theorem lift_eq_ok_iff {α : Type} {x : Except CatalogError α} {a : α} :
    lift x = .ok a ↔ x = .ok a := by
  cases x with
  | ok b => simp [lift]
  | error e => simp [lift]

theorem exists_column_of_resolve {field : String} {column : ResolvedColumn}
    (h : s.resolve field = .ok column) :
    s.registry.resolve field = .ok column.column ∧
      column.text = columnText s.dialect column.column := by
  obtain ⟨ref, href, h⟩ := bind_eq_ok_iff.mp h
  simp only [pure, Except.pure, Except.ok.injEq] at h
  rw [← h]
  exact ⟨href, rfl⟩

theorem exists_columns_of_resolveAll {fields : List String} {columns : List ResolvedColumn}
    (h : s.resolveAll fields = .ok columns) :
    fields.mapM s.registry.resolve = .ok (columns.map (·.column)) ∧
      columns.map (·.text) = (columns.map (·.column)).map (columnText s.dialect) := by
  induction fields generalizing columns with
  | nil =>
      obtain rfl : [] = columns := by simpa [resolveAll] using h
      exact ⟨rfl, rfl⟩
  | cons field fields ih =>
      obtain ⟨column, hcolumn, h⟩ := bind_eq_ok_iff.mp h
      obtain ⟨rest, hrest, h⟩ := bind_eq_ok_iff.mp h
      obtain rfl : column :: rest = columns := by simpa [pure, Except.pure] using h
      obtain ⟨hresolve, htext⟩ := exists_column_of_resolve hcolumn
      obtain ⟨hresolveAll, htexts⟩ := ih hrest
      constructor
      · rw [List.mapM_cons, hresolve, hresolveAll]
        rfl
      · simp only [List.map_cons, htext, htexts]

theorem exists_join_of_joinClause {l : JoinLink} {clause : JoinClause}
    (h : s.joinClause l = .ok clause) :
    ∃ j, s.join l = .ok j ∧ clause = writtenJoin s.dialect j := by
  obtain ⟨left, hleft, h⟩ := bind_eq_ok_iff.mp h
  obtain ⟨right, hright, h⟩ := bind_eq_ok_iff.mp h
  simp only [pure, Except.pure, Except.ok.injEq] at h
  obtain ⟨hresolveLeft, htextLeft⟩ := exists_column_of_resolve hleft
  obtain ⟨hresolveRight, htextRight⟩ := exists_column_of_resolve hright
  refine ⟨⟨l.kind, l.right.table, left.column, right.column⟩, ?_, ?_⟩
  · rw [join, hresolveLeft, hresolveRight]
    rfl
  · rw [← h, htextLeft, htextRight]
    rfl

theorem exists_joins_of_joinClauses {links : List JoinLink} {clauses : List JoinClause}
    (h : s.joinClauses links = .ok clauses) :
    ∃ js, links.mapM s.join = .ok js ∧ clauses = js.map (writtenJoin s.dialect) := by
  induction links generalizing clauses with
  | nil =>
      obtain rfl : [] = clauses := by simpa [joinClauses] using h
      exact ⟨[], rfl, rfl⟩
  | cons l links ih =>
      obtain ⟨clause, hclause, h⟩ := bind_eq_ok_iff.mp h
      obtain ⟨rest, hrest, h⟩ := bind_eq_ok_iff.mp h
      obtain rfl : clause :: rest = clauses := by simpa [pure, Except.pure] using h
      obtain ⟨j, hjoin, rfl⟩ := exists_join_of_joinClause hclause
      obtain ⟨js, hjoins, rfl⟩ := ih hrest
      refine ⟨j :: js, ?_, rfl⟩
      rw [List.mapM_cons, hjoin, hjoins]
      rfl

/-- The columns that a query is sorted by stand as the dialect writes them. -/
theorem text_of_mem_sortedColumns {k : ResolvedColumn × SortDirection} {keys : List SortKey}
    (h : k ∈ s.sortedColumns keys) : k.1.text = columnText s.dialect k.1.column := by
  obtain ⟨key, -, hsorts⟩ := exists_sorts_of_mem h
  exact (exists_column_of_resolve hsorts.1).2

theorem exists_cut_of_compileCriteria {tree : Criteria} {f : SqlFragment}
    (h : s.compileCriteria Sql.backend tree = .ok f) :
    ∃ ts, Cut f.text.toList ts f.params.length := by
  obtain ⟨_, _, _, hwrites, _⟩ := exists_writes_of_compileCriteria h
  obtain ⟨ts, hcut, -⟩ := hwrites.level
  exact ⟨ts, hcut⟩

/-- What compilation succeeds with are the clauses that the document asks for. -/
theorem exists_renders {doc : Document} {q : Compiled SqlFragment String}
    (h : s.compile Sql.backend doc = .ok q) :
    ∃ c, s.clauses doc = .ok c ∧ Renders s.dialect q c := by
  obtain ⟨joins, hjoins, h⟩ := bind_eq_ok_iff.mp h
  obtain ⟨projection, hprojection, h⟩ := bind_eq_ok_iff.mp h
  obtain ⟨predicate, hpredicate, h⟩ := bind_eq_ok_iff.mp h
  obtain ⟨js, hjs, rfl⟩ := exists_joins_of_joinClauses (lift_eq_ok_iff.mp hjoins)
  obtain ⟨hcolumns, htexts⟩ := exists_columns_of_resolveAll (lift_eq_ok_iff.mp hprojection)
  simp only [pure, Except.pure, Except.ok.injEq] at h
  subst h
  let keys := s.sortedColumns doc.sorter
  let window := PageWindow.ofPager doc.pager s.limits
  refine ⟨⟨projection.map (·.column), s.graph.root.table, js, predicate.text,
    keys.map fun k => (k.1.column, k.2), window.limit.toNat, window.offset.toNat⟩, ?_, ?_⟩
  · rw [clauses, hjs, hcolumns, hpredicate]
    rfl
  · refine ⟨htexts, rfl, rfl, rfl, exists_cut_of_compileCriteria hpredicate, ?_, rfl, rfl⟩
    rw [List.map_map]
    apply List.map_congr_left
    intro k hk
    simp only [Sql.backend, Sql.order, Function.comp_apply, keyText, text_of_mem_sortedColumns hk]

end Scope

namespace Sql

variable (d : Dialect)

/-! ### Before the predicate -/

/-- The tokens of the columns to take. -/
def projectionTokens : List ColumnRef → List Token
  | [] => [.mark '*']
  | columns => commaTokens (columns.map (columnTokens d))

theorem cut_columnsText {written : List ResolvedColumn} {columns : List ColumnRef}
    (h : written.map (·.text) = columns.map (columnText d)) :
    Cut (columnsText written).toList (projectionTokens d columns) 0 := by
  cases columns with
  | nil =>
      obtain rfl : written = [] := by simpa using h
      exact Cut.nil.mark (c := '*') (by decide) Cut.nil
  | cons column columns =>
      have hcommas := cut_commas (cut_escape d) (column :: columns)
      cases written with
      | nil => simp at h
      | cons first written =>
          rw [columnsText, h]
          · exact hcommas
          · simp

theorem readProjection_of_readColumns {ts : List Token} {r : List ColumnRef × List Token}
    (h : readColumns ts = some r) : readProjection ts = some r := by
  unfold readProjection
  split
  · next rest =>
      unfold readColumns at h
      split at h
      · next heq =>
          obtain ⟨rfl, -⟩ := List.cons.inj heq
          simp [column?, Token.name?] at h
      · next heq =>
          obtain ⟨rfl, -⟩ := List.cons.inj heq
          simp [column?, Token.name?] at h
      · simp at h
  · exact h

theorem readProjection_projectionTokens (columns : List ColumnRef) {rest : List Token}
    (hrest : Ends rest) :
    readProjection (solid (projectionTokens d columns) ++ rest) = some (columns, rest) := by
  cases columns with
  | nil => simp [projectionTokens, readProjection]
  | cons column columns =>
      apply readProjection_of_readColumns
      exact readColumns_columns d (List.cons_ne_nil column columns) hrest

def headTokens (c : Clauses) : List Token :=
  .word "SELECT" :: .mark ' ' :: (projectionTokens d c.columns ++ .mark ' ' :: .word "FROM" ::
    .mark ' ' :: identifierToken d c.root :: c.joins.flatMap (joinTokens d))

theorem readHead_headTokens (c : Clauses) :
    readHead (solid (headTokens d c)) = some (c.columns, c.root, c.joins) := by
  have hends : Ends (.word "FROM" :: identifierToken d c.root ::
      solid (c.joins.flatMap (joinTokens d))) := by
    simp [Ends]
  have hprojection := readProjection_projectionTokens d c.columns hends
  simp [headTokens, readHead, identifierToken_ne_mark, hprojection, readSource, readJoins_joins]

theorem Renders.cut_head {q : Compiled SqlFragment String} {c : Clauses} (h : Renders d q c) :
    Cut ("SELECT " ++ columnsText q.projection ++ " FROM " ++ q.source ++
      String.join (q.joins.map joinText)).toList (headTokens d c) 0 := by
  have hselect : Cut "SELECT".toList [.word "SELECT"] 0 := Cut.word (by decide)
  have hfrom : Cut "FROM".toList [.word "FROM"] 0 := Cut.word (by decide)
  have hsource := hfrom.blank (cut_escapeIdentifier d c.root)
  have hcolumns := hselect.blank ((cut_columnsText d h.columns).blank hsource)
  have hcut := cut_joins d c.joins hcolumns
  rw [h.joins, h.source]
  simpa [headTokens] using hcut

/-! ### After the predicate -/

theorem all_isDigit_repr (n : Nat) : n.repr.toList.all Char.isDigit = true := by
  apply List.all_eq_true.mpr
  intro c hc
  rw [Nat.toList_repr] at hc
  exact Nat.isDigit_of_mem_toDigits (by decide) (by decide) hc

theorem cut_number (n : Nat) : Cut n.repr.toList [.word n.repr] 0 := by
  have hdigits := all_isDigit_repr n
  apply Cut.word
  refine ⟨?_, ?_, ?_⟩
  · rw [Nat.toList_repr]
    exact Nat.toDigits_ne_nil
  · apply List.all_eq_true.mpr
    intro c hc
    simp [isWordChar, Char.isAlphanum, List.all_eq_true.mp hdigits c hc]
  · intro hmem
    have hclause : ∀ w ∈ clauseWords, w.toList.all Char.isDigit = false := by
      simp [clauseWords]
    rw [hclause _ hmem] at hdigits
    simp at hdigits

@[simp] theorem number?_repr (n : Nat) : number? n.repr = some n := by
  rw [number?, if_pos (all_isDigit_repr n), Nat.toList_repr, Nat.ofDigitChars_ten_toDigits]

def windowTokens (limit offset : Nat) : List Token :=
  [.word "LIMIT", .mark ' ', .word limit.repr, .mark ' ', .word "OFFSET", .mark ' ',
    .word offset.repr]

def footTokens (c : Clauses) : List Token :=
  match c.order with
  | [] => windowTokens c.limit c.offset
  | keys => .word "ORDER" :: .mark ' ' :: .word "BY" :: .mark ' ' ::
      (commaTokens (keys.map (keyTokens d)) ++ .mark ' ' :: windowTokens c.limit c.offset)

theorem readWindow_windowTokens (limit offset : Nat) :
    readWindow (solid (windowTokens limit offset)) = some (limit, offset) := by
  simp [windowTokens, readWindow]

theorem readFoot_footTokens (c : Clauses) :
    readFoot (solid (footTokens d c)) = some (c.order, c.limit, c.offset) := by
  have hwindow := readWindow_windowTokens c.limit c.offset
  have hends : Ends (solid (windowTokens c.limit c.offset)) := by
    simp [windowTokens, Ends]
  unfold footTokens
  split
  · next horder => simp [horder, windowTokens, readFoot, readWindow]
  · next hne =>
      have hkeys := readKeys_keys d hne hends
      simp [readFoot, hkeys, hwindow]

theorem lexes_word {w : String} (hne : w.toList ≠ []) (hw : w.toList.all isWordChar = true) :
    Lexes w.toList [.word w] := by
  simpa using Lexes.word hne (List.all_eq_true.mp hw)

theorem lexes_window (limit offset : Nat) :
    Lexes ("LIMIT " ++ toString limit ++ " OFFSET " ++ toString offset).toList
      (windowTokens limit offset) := by
  have hlimit : Lexes "LIMIT".toList [.word "LIMIT"] := lexes_word (by decide) (by decide)
  have hoffset : Lexes "OFFSET".toList [.word "OFFSET"] := lexes_word (by decide) (by decide)
  have hskip := hoffset.blank (cut_number offset).lexes
  have hall := hlimit.blank ((cut_number limit).lexes.blank hskip)
  simpa [windowTokens] using hall

/-- What stands after the predicate, without the blank before it. -/
def footText (c : Clauses) : String :=
  let window := "LIMIT " ++ toString c.limit ++ " OFFSET " ++ toString c.offset
  match c.order with
  | [] => window
  | keys => "ORDER BY " ++ Text.joined ", " (keys.map (keyText d)) ++ " " ++ window

theorem lexes_foot (c : Clauses) : Lexes (footText d c).toList (footTokens d c) := by
  have hwindow := lexes_window c.limit c.offset
  unfold footText footTokens
  cases c.order with
  | nil => exact hwindow
  | cons k keys =>
      have horder : Lexes "ORDER".toList [.word "ORDER"] := lexes_word (by decide) (by decide)
      have hby : Lexes "BY".toList [.word "BY"] := lexes_word (by decide) (by decide)
      have hkeys := (cut_commas (cut_key d) (k :: keys)).lexes
      have hall := horder.blank (hby.blank (hkeys.blank hwindow))
      simpa using hall

/-! ### The whole statement -/

/-- A part and the blank after it start no clause. -/
theorem Cut.continues {part : List Char} {ts : List Token} {n : Nat} (h : Cut part ts n) :
    ∀ t ∈ ts ++ [.mark ' '], Sql.continues t = true := by
  intro t ht
  rcases List.mem_append.mp ht with ht | ht
  · cases t with
    | word w =>
        have hfree : w ∉ clauseWords := fun hmem => h.goesOn w hmem ht
        simpa [Sql.continues] using hfree
    | _ => rfl
  · obtain rfl := List.mem_singleton.mp ht
    rfl

/-- What stands after the predicate starts a clause. -/
theorem head?_footTokens (c : Clauses) : ∀ t ∈ (footTokens d c).head?, continues t = false := by
  unfold footTokens
  split <;> simp [windowTokens, continues, clauseWords]

theorem count_footTokens (c : Clauses) : (footTokens d c).count (.mark '?') = 0 := by
  have hkeys := (cut_commas (cut_key d) c.order).count
  unfold footTokens
  split
  · simp [windowTokens]
  · simp [windowTokens, hkeys]

namespace Renders

variable {d} {q : Compiled SqlFragment String} {c : Clauses}

theorem toList_select (h : Renders d q c) :
    (select q).text.toList =
      ("SELECT " ++ columnsText q.projection ++ " FROM " ++ q.source ++
        String.join (q.joins.map joinText)).toList ++ ' ' :: ("WHERE".toList ++ ' ' ::
          (q.predicate.text.toList ++ ' ' :: (footText d c).toList)) := by
  have hfoot : (orderText (c.order.map (keyText d)) ++ " LIMIT " ++ toString c.limit ++
      " OFFSET " ++ toString c.offset).toList = ' ' :: (footText d c).toList := by
    unfold footText
    cases c.order with
    | nil => simp [orderText]
    | cons k keys => simp [orderText]
  have hselect : (select q).text = "SELECT " ++ columnsText q.projection ++ " FROM " ++ q.source ++
      String.join (q.joins.map joinText) ++ " WHERE " ++ q.predicate.text ++
        (orderText q.orderBy ++ " LIMIT " ++ toString q.window.limit.toNat ++ " OFFSET " ++
          toString q.window.offset.toNat) := by
    unfold select
    simp only [String.append_assoc]
  rw [hselect, h.order, h.limit, h.offset, String.toList_append, hfoot]
  simp

/-- The statement in tokens: what stands before `WHERE`, the predicate, and what stands after. -/
theorem tokens_select (h : Renders d q c) :
    ∃ ts, Cut q.predicate.text.toList ts q.predicate.params.length ∧
      tokens (select q).text.toList = headTokens d c ++ .mark ' ' :: .word "WHERE" :: .mark ' ' ::
        (ts ++ .mark ' ' :: footTokens d c) := by
  obtain ⟨ts, hcut⟩ := h.cut
  have hwhere : Lexes "WHERE".toList [.word "WHERE"] := lexes_word (by decide) (by decide)
  have hrest := hwhere.blank (hcut.lexes.blank (lexes_foot d c))
  have hall := h.cut_head.lexes.blank hrest
  refine ⟨ts, hcut, ?_⟩
  rw [h.toList_select]
  exact hall.tokens_eq

/-- The statement is read back as its clauses. -/
theorem readStatement_eq (h : Renders d q c) : readStatement (select q).text = some c := by
  obtain ⟨ts, hcut, htokens⟩ := h.tokens_select
  have htext : ts.flatMap Token.text = q.predicate.text.toList := by
    calc
      ts.flatMap Token.text = (tokens q.predicate.text.toList).flatMap Token.text := by
        rw [hcut.lexes.tokens_eq]
      _ = q.predicate.text.toList := flatMap_text_tokens _
  have hwhere : ∀ t ∈ (Token.word "WHERE" :: .mark ' ' :: (ts ++ [.mark ' '] ++
      footTokens d c)).head?, continues t = false := by
    simp [continues, clauseWords]
  obtain ⟨htake, hdrop⟩ := run_append h.cut_head.continues hwhere
  obtain ⟨htake', hdrop'⟩ := run_append hcut.continues (head?_footTokens d c)
  have hsplit : tokens (select q).text.toList = headTokens d c ++ [.mark ' '] ++
      .word "WHERE" :: .mark ' ' :: (ts ++ [.mark ' '] ++ footTokens d c) := by
    rw [htokens]
    simp
  have hsolid : solid (headTokens d c ++ [.mark ' ']) = solid (headTokens d c) := by simp
  simp only [readStatement, hsplit, hdrop, htake, hdrop', htake', hsolid, readHead_headTokens,
    readFoot_footTokens, List.dropLast_concat, htext, h.predicate, String.ofList_toList]
  rfl

theorem placeholders_eq (h : Renders d q c) :
    placeholders (select q).text = (select q).params.length := by
  obtain ⟨ts, hcut, htokens⟩ := h.tokens_select
  have hhead := h.cut_head.count
  have hfoot := count_footTokens d c
  have hparams : (select q).params = q.predicate.params := rfl
  rw [placeholders, htokens, hparams]
  simp [hhead, hcut.count, hfoot]

end Renders

/-- Whatever the names of the catalog and the document are, a statement is read back as the clauses
that the document asks for. It has a placeholder for each parameter, and whatever compiles to the
same text asks for the same. -/
theorem readStatement_select (s : Scope) (doc : Document) (q : Compiled SqlFragment String)
    (h : s.compile Sql.backend doc = .ok q) :
    ∃ c, s.clauses doc = .ok c ∧ readStatement (select q).text = some c ∧
      placeholders (select q).text = (select q).params.length ∧
      ∀ (s' : Scope) (doc' : Document) (q' : Compiled SqlFragment String),
        s'.compile Sql.backend doc' = .ok q' →
        (select q').text = (select q).text → s'.clauses doc' = .ok c := by
  obtain ⟨c, hc, hrenders⟩ := Scope.exists_renders h
  refine ⟨c, hc, hrenders.readStatement_eq, hrenders.placeholders_eq, ?_⟩
  intro s' doc' q' h' htext
  obtain ⟨c', hc', hrenders'⟩ := Scope.exists_renders h'
  have hsame : some c' = some c := by
    calc
      some c' = readStatement (select q').text := hrenders'.readStatement_eq.symm
      _ = readStatement (select q).text := by rw [htext]
      _ = some c := hrenders.readStatement_eq
  rw [hc', Option.some.inj hsame]

/-- Two joined tables, whose names hold keywords, quotes and placeholders. -/
def keywordScope : Scope where
  registry :=
    { owners := SortedMap.ofList [("a.id", ⟨"a WHERE \"", "ORDER BY"⟩), ("x.owner", ⟨"x, ?", "LIMIT"⟩)]
      shared := ∅, explicit := ∅, aliases := ∅ }
  graph :=
    let left : TableNode := ⟨"e", "a WHERE \"", ∅, ∅⟩
    let right : TableNode := ⟨"f", "x, ?", ∅, ∅⟩
    ⟨left, [⟨left, right, ⟨"a", "id", "x", "owner"⟩, .left⟩]⟩
  dialect := .postgres
  limits := {}

def keywordDocument : Document where
  criteria := .leaf "a.id" (.comparison .equal) (.one (.text "?"))
  sorter := [⟨"x.owner", .descending⟩, ⟨"a.id", .ascending⟩]
  projection := ["a.id", "x.owner"]

theorem readStatement_select_keyword :
    ∃ q, keywordScope.compile Sql.backend keywordDocument = .ok q ∧
      ∃ c, keywordScope.clauses keywordDocument = .ok c ∧
        readStatement (select q).text = some c ∧
        placeholders (select q).text = (select q).params.length ∧
        ∀ (s' : Scope) (doc' : Document) (q' : Compiled SqlFragment String),
          s'.compile Sql.backend doc' = .ok q' →
            (select q').text = (select q).text → s'.clauses doc' = .ok c :=
  ⟨_, rfl, readStatement_select keywordScope keywordDocument _ rfl⟩

end Sql

end CriteriaQuery
