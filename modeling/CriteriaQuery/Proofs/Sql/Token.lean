import CriteriaQuery.Compile.Sql
import Mathlib.Data.List.TakeWhile

/-!
# Tokens of SQL text

SQL text is cut into runs of word characters, runs of operator characters, quoted identifiers
and single marks. The cut loses nothing, and neither a quoted identifier nor a run is ever
split. What a text is cut into can be said part by part, as long as each part is followed by
a mark or by nothing.

## Implementation notes

A quoted identifier may stand between either kind of quote character, so that text is cut
without knowing its dialect.
-/

namespace CriteriaQuery

namespace Sql

/-- A lexical unit of SQL text. -/
inductive Token
  | word (text : String)
  | operator (text : String)
  /-- An identifier between quotes, with the doubling of the quote character undone. -/
  | quoted (quote : Char) (name : String)
  /-- All that follows a quote character which is never closed. -/
  | unclosed (quote : Char) (rest : String)
  | mark (c : Char)
deriving DecidableEq

/-- Words are made of letters, digits and underscores. -/
def isWordChar (c : Char) : Bool := c.isAlphanum || c = '_'

def isOperatorChar (c : Char) : Bool := c = '=' || c = '<' || c = '>'

def isQuoteChar (c : Char) : Bool := c = '\x60' || c = '"'

/-- A mark is a character that stands for itself alone. -/
def isMark (c : Char) : Bool := !isWordChar c && !isOperatorChar c && !isQuoteChar c

/-- The name up to the closing quote, which is not doubled, and what follows. -/
def closeQuote (quote : Char) : List Char → Option (List Char × List Char)
  | [] => none
  | [c] => if c = quote then some ([], []) else none
  | c :: d :: rest =>
    if c = quote then
      if d = quote then (closeQuote quote rest).map fun e => (quote :: e.1, e.2)
      else some ([], d :: rest)
    else (closeQuote quote (d :: rest)).map fun e => (c :: e.1, e.2)

/-- What is read up to a closing quote stands there with its quotes doubled. -/
theorem closeQuote_eq_some {quote : Char} {cs name rest : List Char}
    (h : closeQuote quote cs = some (name, rest)) :
    Dialect.doubled quote name ++ quote :: rest = cs := by
  induction cs using closeQuote.induct quote generalizing name with
  | case1 => simp [closeQuote] at h
  | case2 => simp_all [closeQuote, Dialect.doubled]
  | case3 c hc => simp [closeQuote, hc] at h
  | case4 rest' ih =>
      simp only [closeQuote, if_true, Option.map_eq_some_iff, Prod.mk.injEq] at h
      obtain ⟨⟨name', rest''⟩, h, rfl, rfl⟩ := h
      have := ih h
      simpa [Dialect.doubled] using this
  | case5 d rest' hd => simp_all [closeQuote, Dialect.doubled]
  | case6 c d rest' hc ih =>
      simp only [closeQuote, hc, if_false, Option.map_eq_some_iff, Prod.mk.injEq] at h
      obtain ⟨⟨name', rest''⟩, h, rfl, rfl⟩ := h
      have := ih h
      simpa [Dialect.doubled, hc] using this

theorem length_closeQuote {quote : Char} {cs name rest : List Char}
    (h : closeQuote quote cs = some (name, rest)) : rest.length < cs.length := by
  rw [← closeQuote_eq_some h, List.length_append, List.length_cons]
  omega

/-- The tokens of a text. -/
def tokens : List Char → List Token
  | [] => []
  | c :: cs =>
    if isWordChar c then
      .word (String.ofList (c :: cs.takeWhile isWordChar)) :: tokens (cs.dropWhile isWordChar)
    else if isOperatorChar c then
      .operator (String.ofList (c :: cs.takeWhile isOperatorChar)) ::
        tokens (cs.dropWhile isOperatorChar)
    else if isQuoteChar c then
      match _h : closeQuote c cs with
      | some (name, rest) => .quoted c (String.ofList name) :: tokens rest
      | none => [.unclosed c (String.ofList cs)]
    else .mark c :: tokens cs
termination_by cs => cs.length
decreasing_by
  · exact Nat.lt_succ_of_le (List.length_dropWhile_le _ _)
  · exact Nat.lt_succ_of_le (List.length_dropWhile_le _ _)
  · exact Nat.lt_succ_of_lt (length_closeQuote _h)
  · exact Nat.lt_succ_self _

namespace Token

/-- The text that a token was cut from. -/
def text : Token → List Char
  | .word w => w.toList
  | .operator o => o.toList
  | .quoted quote name => quote :: Dialect.doubled quote name.toList ++ [quote]
  | .unclosed quote rest => quote :: rest.toList
  | .mark c => [c]

end Token

theorem isQuoteChar_cases {c : Char} (h : isQuoteChar c = true) : c = '\x60' ∨ c = '"' := by
  simpa [isQuoteChar] using h

/-- A run ends where something of another kind follows. -/
theorem run_append {α : Type} {p : α → Bool} {run rest : List α} (hrun : ∀ c ∈ run, p c = true)
    (hrest : ∀ c ∈ rest.head?, p c = false) :
    (run ++ rest).takeWhile p = run ∧ (run ++ rest).dropWhile p = rest := by
  rw [List.takeWhile_append_of_pos hrun, List.dropWhile_append_of_pos hrun]
  cases rest with
  | nil => simp
  | cons c rest => simp [hrest c rfl]

theorem tokens_word {w rest : List Char} (hne : w ≠ []) (hw : ∀ c ∈ w, isWordChar c = true)
    (hrest : ∀ c ∈ rest.head?, isWordChar c = false) :
    tokens (w ++ rest) = .word (String.ofList w) :: tokens rest := by
  obtain ⟨c, w, rfl⟩ := List.exists_cons_of_ne_nil hne
  obtain ⟨htake, hdrop⟩ := run_append (fun a ha => hw a (List.mem_cons_of_mem c ha)) hrest
  rw [List.cons_append, tokens, if_pos (hw c List.mem_cons_self), htake, hdrop]

theorem tokens_operator {o rest : List Char} (hne : o ≠ [])
    (ho : ∀ c ∈ o, isOperatorChar c = true)
    (hrest : ∀ c ∈ rest.head?, isOperatorChar c = false) :
    tokens (o ++ rest) = .operator (String.ofList o) :: tokens rest := by
  obtain ⟨c, o, rfl⟩ := List.exists_cons_of_ne_nil hne
  obtain ⟨htake, hdrop⟩ := run_append (fun a ha => ho a (List.mem_cons_of_mem c ha)) hrest
  have hword : ¬ isWordChar c = true := by
    have : c = '=' ∨ c = '<' ∨ c = '>' := by
      simpa [isOperatorChar, or_assoc] using ho c List.mem_cons_self
    rcases this with rfl | rfl | rfl <;> decide
  rw [List.cons_append, tokens, if_neg hword, if_pos (ho c List.mem_cons_self), htake, hdrop]

theorem tokens_quote {quote : Char} (cs : List Char) (h : isQuoteChar quote = true) :
    tokens (quote :: cs) = match closeQuote quote cs with
      | some (name, rest) => .quoted quote (String.ofList name) :: tokens rest
      | none => [.unclosed quote (String.ofList cs)] := by
  have hword : ¬ isWordChar quote = true ∧ ¬ isOperatorChar quote = true := by
    rcases isQuoteChar_cases h with rfl | rfl <;> decide
  rw [tokens, if_neg hword.1, if_neg hword.2, if_pos h]
  split <;> simp_all

theorem tokens_mark {c : Char} (cs : List Char) (h : isMark c = true) :
    tokens (c :: cs) = .mark c :: tokens cs := by
  simp only [isMark, Bool.and_eq_true, Bool.not_eq_true'] at h
  rw [tokens]
  simp [h]

/-- Nothing of a text is lost in its tokens. -/
theorem flatMap_text_tokens (cs : List Char) : (tokens cs).flatMap Token.text = cs := by
  induction cs using tokens.induct with
  | case1 => simp [tokens]
  | case2 c cs hc ih =>
      rw [tokens]
      simp [hc, Token.text, ih]
  | case3 c cs hw hc ih =>
      rw [tokens]
      simp [hw, hc, Token.text, ih]
  | case4 c cs hw ho hc name rest h ih =>
      rw [tokens_quote cs hc, h]
      simpa [Token.text, ih] using closeQuote_eq_some h
  | case5 c cs hw ho hc h =>
      rw [tokens_quote cs hc, h]
      simp [Token.text]
  | case6 c cs hw ho hc ih =>
      rw [tokens]
      simp [hw, ho, hc, Token.text, ih]

/-- The number of placeholders of a text: question marks outside quoted identifiers. -/
def placeholders (text : String) : Nat := (tokens text.toList).count (.mark '?')

/-! ### Texts cut part by part -/

/-- What may follow a part of a text: a mark, or nothing. -/
def Apart (rest : List Char) : Prop := ∀ c ∈ rest.head?, isMark c = true

/-- A part of a text is cut into tokens in the same way wherever it is set apart. -/
def Lexes (part : List Char) (ts : List Token) : Prop :=
  ∀ rest, Apart rest → tokens (part ++ rest) = ts ++ tokens rest

theorem apart_nil : Apart [] := by simp [Apart]

theorem apart_cons {c : Char} (cs : List Char) (h : isMark c = true) : Apart (c :: cs) := by
  simpa [Apart] using h

namespace Lexes

variable {part part' : List Char} {ts ts' : List Token}

theorem tokens_eq (h : Lexes part ts) : tokens part = ts := by
  have := h [] apart_nil
  simpa [tokens] using this

theorem nil : Lexes [] [] := fun _ _ => rfl

/-- Two parts with a mark between them. -/
theorem mark {c : Char} (h : Lexes part ts) (hc : isMark c = true) (h' : Lexes part' ts') :
    Lexes (part ++ c :: part') (ts ++ .mark c :: ts') := by
  intro rest hrest
  rw [List.append_assoc, List.cons_append, h _ (apart_cons _ hc), tokens_mark _ hc, h' rest hrest]
  simp

theorem blank (h : Lexes part ts) (h' : Lexes part' ts') :
    Lexes (part ++ ' ' :: part') (ts ++ .mark ' ' :: ts') :=
  h.mark (by decide) h'

theorem word {w : List Char} (hne : w ≠ []) (hw : ∀ c ∈ w, isWordChar c = true) :
    Lexes w [.word (String.ofList w)] := by
  intro rest hrest
  apply tokens_word hne hw
  intro c hc
  have := hrest c hc
  simp only [isMark, Bool.and_eq_true, Bool.not_eq_true'] at this
  exact this.1.1

theorem operator {o : List Char} (hne : o ≠ []) (ho : ∀ c ∈ o, isOperatorChar c = true) :
    Lexes o [.operator (String.ofList o)] := by
  intro rest hrest
  apply tokens_operator hne ho
  intro c hc
  have := hrest c hc
  simp only [isMark, Bool.and_eq_true, Bool.not_eq_true'] at this
  exact this.1.2

end Lexes

theorem closeQuote_cons_of_ne {quote c : Char} (cs : List Char) (h : c ≠ quote) :
    closeQuote quote (c :: cs) = (closeQuote quote cs).map fun e => (c :: e.1, e.2) := by
  cases cs <;> simp [closeQuote, h]

/-- A closing quote which is not doubled ends the name. -/
theorem closeQuote_doubled {quote : Char} (name rest : List Char)
    (hrest : ∀ c ∈ rest.head?, c ≠ quote) :
    closeQuote quote (Dialect.doubled quote name ++ quote :: rest) = some (name, rest) := by
  induction name with
  | nil =>
      cases rest with
      | nil => simp [Dialect.doubled, closeQuote]
      | cons c rest => simp [Dialect.doubled, closeQuote, hrest c rfl]
  | cons c name ih =>
      by_cases hc : c = quote
      · subst hc
        simpa [Dialect.doubled, closeQuote] using ih
      · have hcons : Dialect.doubled quote (c :: name) = c :: Dialect.doubled quote name := by
          simp [Dialect.doubled, hc]
        rw [hcons, List.cons_append, closeQuote_cons_of_ne _ hc, ih]
        rfl

theorem Lexes.quoted {quote : Char} (name : List Char) (h : isQuoteChar quote = true) :
    Lexes (quote :: Dialect.doubled quote name ++ [quote])
      [.quoted quote (String.ofList name)] := by
  intro rest hrest
  have hclose : closeQuote quote (Dialect.doubled quote name ++ quote :: rest) =
      some (name, rest) := by
    apply closeQuote_doubled name rest
    intro c hc heq
    have := hrest c hc
    simp [isMark, heq, h] at this
  rw [List.append_assoc, List.cons_append, List.singleton_append, tokens_quote _ h, hclose]
  rfl

/-! ### Identifiers -/

/-- The token that an identifier becomes where a dialect writes it. -/
def identifierToken (d : Dialect) (identifier : String) : Token :=
  if d.needsQuoting identifier then .quoted d.quoteChar identifier else .word identifier

theorem isPlain_spec {cs : List Char} (h : Dialect.isPlain cs = true) :
    cs ≠ [] ∧ ∀ c ∈ cs, isWordChar c = true := by
  cases cs with
  | nil => simp [Dialect.isPlain] at h
  | cons c cs =>
      simp only [Dialect.isPlain, Bool.and_eq_true, List.all_eq_true] at h
      refine ⟨List.cons_ne_nil c cs, ?_⟩
      intro a ha
      rcases List.mem_cons.mp ha with rfl | ha
      · have := h.1
        simp only [Dialect.isPlainStart, isWordChar, Char.isAlphanum, Bool.or_eq_true] at this ⊢
        exact this.imp_left Or.inl
      · exact h.2 a ha

theorem isQuoteChar_quoteChar (d : Dialect) : isQuoteChar d.quoteChar = true := by
  cases d <;> decide

/-- Whatever its characters, an identifier is written as one token. -/
theorem lexes_escapeIdentifier (d : Dialect) (identifier : String) :
    Lexes (d.escapeIdentifier identifier).toList [identifierToken d identifier] := by
  unfold Dialect.escapeIdentifier identifierToken
  split
  · rw [Dialect.quote, String.toList_ofList]
    simpa using Lexes.quoted identifier.toList (isQuoteChar_quoteChar d)
  · next h =>
      have hplain : Dialect.isPlain identifier.toList = true := by
        simp only [Dialect.needsQuoting, Bool.or_eq_true, not_or] at h
        simpa using h.1.2
      obtain ⟨hne, hword⟩ := isPlain_spec hplain
      simpa using Lexes.word hne hword

/-- A column is written as its table, a point and its name. -/
def columnTokens (d : Dialect) (column : ColumnRef) : List Token :=
  [identifierToken d column.table, .mark '.', identifierToken d column.column]

end Sql

end CriteriaQuery
