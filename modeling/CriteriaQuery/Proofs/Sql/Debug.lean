import CriteriaQuery.Catalog.Basic
import CriteriaQuery.Proofs.Sql.Rendering
import CriteriaQuery.Session.Basic

/-!
# Parameters shown in their places

The text that is shown for reading puts the parameters in the place of question marks, one after
the other, wherever these stand. A placeholder is a question mark outside quoted identifiers. So
each parameter is shown at its own placeholder exactly when no quoted identifier that holds a
question mark stands before a placeholder.

## Implementation notes

No display form of a parameter starts with a question mark. Hence a parameter that is put into an
identifier shows, whatever comes after it.
-/

namespace CriteriaQuery

/-- A text that starts with a character other than a question mark. -/
def Shows (text : String) : Prop := ∃ c ∈ text.toList.head?, c ≠ '?'

theorem Shows.append {text : String} (h : Shows text) (rest : String) : Shows (text ++ rest) := by
  obtain ⟨c, hc, hne⟩ := h
  refine ⟨c, ?_, hne⟩
  rw [String.toList_append, List.head?_append, Option.mem_def.mp hc]
  rfl

theorem shows_repr (n : Nat) : Shows n.repr := by
  have hne : n.repr.toList ≠ [] := by
    rw [Nat.toList_repr]
    exact Nat.toDigits_ne_nil
  obtain ⟨c, cs, hrepr⟩ := List.exists_cons_of_ne_nil hne
  have hdigit : c.isDigit = true :=
    List.all_eq_true.mp (Sql.all_isDigit_repr n) c (hrepr ▸ List.mem_cons_self)
  refine ⟨c, by rw [hrepr]; rfl, ?_⟩
  rintro rfl
  exact absurd hdigit (by decide)

theorem Decimal.shows_text (d : Decimal) : Shows d.text := by
  have hzero : Shows "0" := ⟨'0', rfl, by decide⟩
  have hdigits : Shows (toString d.digits) := shows_repr d.digits
  unfold text
  dsimp only
  split
  · split
    · exact hzero
    · exact hdigits.append _
  · split
    · next hplaces =>
        -- the digits before the point start as all of them do
        obtain ⟨c, hc, hne⟩ := hdigits
        refine Shows.append (Shows.append ⟨c, ?_, hne⟩ _) _
        rw [String.toList_ofList, List.head?_take, if_neg (by omega)]
        exact hc
    · exact Shows.append (Shows.append ⟨'0', rfl, by decide⟩ _) _

theorem Binary64.shows_text (x : Binary64) : Shows x.text := by
  cases x with
  | nan => exact ⟨'N', rfl, by decide⟩
  | infinite negative =>
      cases negative with
      | false => exact ⟨'i', rfl, by decide⟩
      | true => exact ⟨'-', rfl, by decide⟩
  | finite v =>
      unfold text Finite64.text
      dsimp only
      cases v.negative with
      | false => simpa using v.shortest.shows_text
      | true => exact Shows.append ⟨'-', rfl, by decide⟩ _

/-- No display form starts with a question mark. -/
theorem Scalar.shows_display (v : Scalar) : Shows v.display := by
  cases v with
  | bool b =>
      cases b with
      | false => exact ⟨'f', rfl, by decide⟩
      | true => exact ⟨'t', rfl, by decide⟩
  | int n =>
      have hint : ∀ i : Int, Shows (toString i) := fun i => by
        cases i with
        | ofNat m => exact shows_repr m
        | negSucc m => exact Shows.append ⟨'-', rfl, by decide⟩ m.succ.repr
      exact hint n.toInt
  | float x => exact x.shows_text
  | text s => exact ⟨'\'', by simp [display, quoted], by decide⟩

namespace SqlFragment

/-! ### Question marks and texts for them -/

theorem fill_nil (cs : List Char) : fill cs [] = cs := by
  induction cs with
  | nil => rfl
  | cons c cs ih => rw [fill, ih]

theorem fill_append_of_notMem {part : List Char} (h : '?' ∉ part) (rest : List Char)
    (ps : List String) : fill (part ++ rest) ps = part ++ fill rest ps := by
  induction part with
  | nil => rfl
  | cons c part ih =>
      obtain ⟨hc, hpart⟩ := not_or.mp (List.mem_cons.not.mp h)
      cases ps with
      | nil => rw [fill_nil, fill_nil]
      | cons p ps => rw [List.cons_append, fill, if_neg (Ne.symm hc), ih hpart, List.cons_append]

/-- A text that is put into a part shows there. -/
theorem fill_append_ne {part : List Char} (h : '?' ∈ part) {p : String} (hp : Shows p)
    (rest : List Char) (ps : List String) (other : List Char) :
    fill (part ++ rest) (p :: ps) ≠ part ++ other := by
  induction part with
  | nil => simp at h
  | cons c part ih =>
      rw [List.cons_append, fill, List.cons_append]
      by_cases hc : c = '?'
      · obtain ⟨first, hfirst, hne⟩ := hp
        obtain ⟨tail, htail⟩ := List.head?_eq_some_iff.mp hfirst
        rw [if_pos hc, htail, hc]
        intro heq
        exact hne (List.cons.inj heq).1
      · have hpart : '?' ∈ part := (List.mem_cons.mp h).resolve_left (Ne.symm hc)
        rw [if_neg hc]
        intro heq
        exact ih hpart (List.cons.inj heq).2

end SqlFragment

namespace Sql

/-! ### Placeholders and texts for them -/

/-- The text of tokens, with texts of a list in the place of the placeholders as long as it
lasts. -/
def inline : List Token → List String → List Char
  | [], _ => []
  | t :: ts, [] => t.text ++ inline ts []
  | t :: ts, p :: ps =>
    if t = .mark '?' then p.toList ++ inline ts ps else t.text ++ inline ts (p :: ps)

theorem inline_nil (ts : List Token) : inline ts [] = ts.flatMap Token.text := by
  induction ts with
  | nil => rfl
  | cons t ts ih => rw [inline, ih, List.flatMap_cons]

theorem inline_cons_of_ne {t : Token} (h : t ≠ .mark '?') (ts : List Token) (ps : List String) :
    inline (t :: ts) ps = t.text ++ inline ts ps := by
  cases ps with
  | nil => rfl
  | cons p ps => rw [inline, if_neg h]

/-- Two tokens, of which the second is a placeholder. -/
theorem sublist_cons_iff {t first : Token} {ts : List Token} :
    [t, .mark '?'].Sublist (first :: ts) ↔
      [t, .mark '?'].Sublist ts ∨ t = first ∧ .mark '?' ∈ ts := by
  rw [List.cons_sublist_cons', List.singleton_sublist]

/-- Whether no token that holds a question mark, and is no placeholder itself, stands before a
placeholder. -/
def Clear (ts : List Token) : Prop :=
  ∀ t, [t, .mark '?'].Sublist ts → t ≠ .mark '?' → '?' ∉ t.text

theorem clear_cons_iff {first : Token} {ts : List Token} :
    Clear (first :: ts) ↔
      Clear ts ∧ (first ≠ .mark '?' → '?' ∈ first.text → .mark '?' ∉ ts) := by
  constructor
  · intro h
    constructor
    · exact fun t hsub => h t (sublist_cons_iff.mpr (Or.inl hsub))
    · exact fun hne hheld hmem => h first (sublist_cons_iff.mpr (Or.inr ⟨rfl, hmem⟩)) hne hheld
  · rintro ⟨hrest, hfirst⟩ t hsub hne
    rcases sublist_cons_iff.mp hsub with hsub | ⟨rfl, hmem⟩
    · exact hrest t hsub hne
    · exact fun hheld => hfirst hne hheld hmem

/-- Question marks and placeholders are filled alike exactly when every question mark before a
placeholder is one. -/
theorem fill_eq_inline_iff {ts : List Token} {ps : List String}
    (hcount : ts.count (.mark '?') = ps.length) (hps : ∀ p ∈ ps, Shows p) :
    SqlFragment.fill (ts.flatMap Token.text) ps = inline ts ps ↔ Clear ts := by
  induction ts generalizing ps with
  | nil => simp [SqlFragment.fill, inline, Clear]
  | cons first ts ih =>
      rw [clear_cons_iff]
      by_cases hmark : first = .mark '?'
      · -- the first text of the list goes to the placeholder in both cases
        subst hmark
        rw [List.count_cons_self] at hcount
        obtain ⟨p, ps, rfl⟩ := List.exists_cons_of_length_eq_add_one hcount.symm
        rw [List.length_cons, Nat.add_right_cancel_iff] at hcount
        have hrest := ih hcount fun p' hp' => hps p' (List.mem_cons_of_mem p hp')
        have hfill : SqlFragment.fill ((Token.mark '?' :: ts).flatMap Token.text) (p :: ps) =
            p.toList ++ SqlFragment.fill (ts.flatMap Token.text) ps := rfl
        rw [hfill, inline, if_pos rfl, List.append_cancel_left_eq, hrest]
        simp
      · rw [List.count_cons_of_ne hmark] at hcount
        have hrest := ih hcount hps
        rw [List.flatMap_cons, inline_cons_of_ne hmark]
        by_cases hheld : '?' ∈ first.text
        · cases ps with
          | nil =>
              -- no placeholder is left
              have hnone : .mark '?' ∉ ts := List.count_eq_zero.mp hcount
              have hclear : Clear ts := fun t hsub => absurd (hsub.subset (by simp)) hnone
              rw [SqlFragment.fill_nil, inline_nil]
              exact iff_of_true rfl ⟨hclear, fun _ _ => hnone⟩
          | cons p ps =>
              have hsome : .mark '?' ∈ ts := List.count_pos_iff.mp (by simp [hcount])
              have hshows := hps p List.mem_cons_self
              refine iff_of_false (SqlFragment.fill_append_ne hheld hshows _ _ _) ?_
              exact fun h => h.2 hmark hheld hsome
        · rw [SqlFragment.fill_append_of_notMem hheld, List.append_cancel_left_eq, hrest]
          simp [hheld]

/-! ### Tokens that hold question marks -/

theorem mem_doubled_iff {q x : Char} {cs : List Char} : x ∈ Dialect.doubled q cs ↔ x ∈ cs := by
  simp only [Dialect.doubled, List.mem_flatMap]
  constructor
  · rintro ⟨c, hc, hx⟩
    split at hx
    · next hq => simp_all
    · simp_all
  · intro hx
    refine ⟨x, hx, ?_⟩
    split <;> simp_all

theorem notMem_cons_takeWhile {p : Char → Bool} {c x : Char} (hc : p c = true) (hx : p x = false)
    (cs : List Char) : x ∉ c :: cs.takeWhile p := by
  intro hmem
  rcases List.mem_cons.mp hmem with rfl | hmem
  · simp [hx] at hc
  · simp [List.mem_takeWhile_imp hmem] at hx

/-- Before a placeholder only quoted identifiers hold question marks that are none. -/
theorem exists_quoted_of_sublist {cs : List Char} {t : Token}
    (hsub : [t, .mark '?'].Sublist (tokens cs)) (hne : t ≠ .mark '?') (hmem : '?' ∈ t.text) :
    ∃ quote name, t = .quoted quote name ∧ '?' ∈ name.toList := by
  induction cs using tokens.induct with
  | case1 => simp [tokens] at hsub
  | case2 c cs hc ih =>
      rw [tokens, if_pos hc] at hsub
      rcases sublist_cons_iff.mp hsub with hsub | ⟨rfl, -⟩
      · exact ih hsub
      · exact absurd hmem (by simpa [Token.text] using notMem_cons_takeWhile hc (by decide) cs)
  | case3 c cs hw hc ih =>
      rw [tokens, if_neg hw, if_pos hc] at hsub
      rcases sublist_cons_iff.mp hsub with hsub | ⟨rfl, -⟩
      · exact ih hsub
      · exact absurd hmem (by simpa [Token.text] using notMem_cons_takeWhile hc (by decide) cs)
  | case4 c cs hw ho hc name rest h ih =>
      rw [tokens_quote cs hc, h] at hsub
      rcases sublist_cons_iff.mp hsub with hsub | ⟨rfl, -⟩
      · exact ih hsub
      · have hquote : '?' ≠ c := by
          rcases isQuoteChar_cases hc with rfl | rfl <;> decide
        refine ⟨c, String.ofList name, rfl, ?_⟩
        simpa [Token.text, mem_doubled_iff, hquote] using hmem
  | case5 c cs hw ho hc h =>
      -- nothing comes after an identifier that is never closed
      rw [tokens_quote cs hc, h] at hsub
      have hlength := hsub.length_le
      simp at hlength
  | case6 c cs hw ho hc ih =>
      rw [tokens, if_neg hw, if_neg ho, if_neg hc] at hsub
      rcases sublist_cons_iff.mp hsub with hsub | ⟨rfl, -⟩
      · exact ih hsub
      · obtain rfl : '?' = c := by simpa [Token.text] using hmem
        exact absurd rfl hne

theorem clear_tokens_iff {cs : List Char} :
    Clear (tokens cs) ↔ ∀ quote name,
      [.quoted quote name, .mark '?'].Sublist (tokens cs) → '?' ∉ name.toList := by
  constructor
  · intro h quote name hsub hmem
    apply h (.quoted quote name) hsub (by simp)
    simp [Token.text, mem_doubled_iff, hmem]
  · intro h t hsub hne hmem
    obtain ⟨quote, name, rfl, hname⟩ := exists_quoted_of_sublist hsub hne hmem
    exact h quote name hsub hname

end Sql

/-- The text with each parameter in the place of its own placeholder. -/
def SqlFragment.inlined (f : SqlFragment) : String :=
  String.ofList (Sql.inline (Sql.tokens f.text.toList) (f.params.map Scalar.display))

theorem SqlFragment.debugText_eq_inlined_of_placeholders {f : SqlFragment}
    (h : Sql.placeholders f.text = f.params.length) :
    f.debugText = f.inlined ↔ ∀ quote name,
      [.quoted quote name, .mark '?'].Sublist (Sql.tokens f.text.toList) → '?' ∉ name.toList := by
  have hcount : (Sql.tokens f.text.toList).count (.mark '?') =
      (f.params.map Scalar.display).length := by
    rw [List.length_map]
    exact h
  have hshows : ∀ p ∈ f.params.map Scalar.display, Shows p := by
    intro p hp
    obtain ⟨v, -, rfl⟩ := List.mem_map.mp hp
    exact v.shows_display
  have hfill := Sql.fill_eq_inline_iff hcount hshows
  rw [Sql.flatMap_text_tokens] at hfill
  rw [debugText, inlined, String.ofList_inj, hfill, Sql.clear_tokens_iff]

namespace Sql

/-- The predicate of a document that compiles, and the statement made from it, have a placeholder
for each parameter. The text for reading shows each parameter at its own placeholder exactly when
no quoted identifier before a placeholder holds a question mark. -/
theorem debugText_eq_inlined_iff (s : Scope) (doc : Document) (q : Compiled SqlFragment String)
    (h : s.compile Sql.backend doc = .ok q) :
    ∀ f ∈ [q.predicate, select q],
      placeholders f.text = f.params.length ∧
        (f.debugText = f.inlined ↔ ∀ quote name,
          [.quoted quote name, .mark '?'].Sublist (tokens f.text.toList) →
            '?' ∉ name.toList) := by
  obtain ⟨c, -, hrenders⟩ := Scope.exists_renders h
  have hpredicate : placeholders q.predicate.text = q.predicate.params.length := by
    obtain ⟨ts, hcut⟩ := hrenders.cut
    rw [placeholders, hcut.lexes.tokens_eq, hcut.count]
  intro f hf
  have hcount : placeholders f.text = f.params.length := by
    rcases List.mem_pair.mp hf with rfl | rfl
    · exact hpredicate
    · exact hrenders.placeholders_eq
  exact ⟨hcount, SqlFragment.debugText_eq_inlined_of_placeholders hcount⟩

theorem debugText_eq_inlined_iff_keyword :
    ∃ q, keywordScope.compile Sql.backend keywordDocument = .ok q ∧
      ∀ f ∈ [q.predicate, select q],
        placeholders f.text = f.params.length ∧
          (f.debugText = f.inlined ↔ ∀ quote name,
            [.quoted quote name, .mark '?'].Sublist (tokens f.text.toList) →
              '?' ∉ name.toList) :=
  ⟨_, rfl, debugText_eq_inlined_iff keywordScope keywordDocument _ rfl⟩

/-- A table with a column whose name holds a question mark. -/
def askingCatalog : Catalog where
  root := "Order"
  tables := [⟨"Order", "orders", SortedMap.ofList [("open", "open?")], ∅⟩]
  joins := []

/-- The value to compare with goes into the name of the column, both in the predicate and in the
statement. -/
theorem debugText_ne_inlined_asking : askingCatalog.validate = .ok () ∧
    ∃ session : Session, ∃ q,
      (Session.build askingCatalog.load "default" askingCatalog.joinDescription .mysql {}).1 =
        .ok session ∧
      session.compile Sql.backend
        { criteria := .leaf "open" (.comparison .equal) (.one (.int 1)) } = .ok q ∧
      q.predicate.debugText = "orders.\x60open1\x60 = ?" ∧
      q.predicate.inlined = "orders.\x60open?\x60 = 1" ∧
      (select q).debugText =
        "SELECT * FROM orders WHERE orders.\x60open1\x60 = ? LIMIT 20 OFFSET 0" ∧
      (select q).inlined =
        "SELECT * FROM orders WHERE orders.\x60open?\x60 = 1 LIMIT 20 OFFSET 0" := by
  refine ⟨rfl, _, _, rfl, rfl, ?_, ?_, ?_, ?_⟩ <;> decide +kernel

end Sql

end CriteriaQuery
