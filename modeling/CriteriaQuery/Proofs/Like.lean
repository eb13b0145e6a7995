import CriteriaQuery.Compile.Condition
import CriteriaQuery.Compile.Sql
import Mathlib.Data.List.Basic

/-!
# What patterns match

A text matches a pattern when it can be split so that each element of the pattern takes its
part, in order. The matcher decides this, and the pattern made of a literal at an anchor
matches exactly the texts that start with, end with or contain the literal, whichever backend
escapes it.

## Implementation notes

The matcher keeps the splits that the elements so far can reach. Its answer is characterised
from any set of reached splits, so that one element is one step of the induction. What a
pattern means is said by a relation between its characters and its elements, in which the
escape character comes before the wildcards.
-/

namespace CriteriaQuery

/-- The part of a text that an element of a pattern can take. -/
def LikeToken.Takes : LikeToken → List Char → Prop
  | .literal c, part => part = [c]
  | .anyOne, part => part.length = 1
  | .anyMany, _ => True

/-- The text that an anchor and a literal ask for. -/
def Anchor.Fits : Anchor → List Char → List Char → Prop
  | .start, literal, text => literal <+: text
  | .finish, literal, text => literal <:+ text
  | .anywhere, literal, text => literal <:+: text

/-- The elements of the pattern of a literal at an anchor. -/
def Anchor.elements : Anchor → List Char → List LikeToken
  | .start, literal => literal.map .literal ++ [.anyMany]
  | .finish, literal => .anyMany :: literal.map .literal
  | .anywhere, literal => .anyMany :: (literal.map .literal ++ [.anyMany])

namespace Like

/-- A text is split into parts, one for each element in order. -/
def Matches : List LikeToken → List Char → Prop
  | [], text => text = []
  | t :: ts, text => ∃ part rest, text = part ++ rest ∧ t.Takes part ∧ Matches ts rest

/-! ### Reached splits -/

theorem getElem?_reachedOnwards {before : Bool} {reached : List Bool} {j : Nat} :
    (reachedOnwards before reached)[j]? = some true ↔
      j < reached.length ∧ (before = true ∨ ∃ i ≤ j, reached[i]? = some true) := by
  induction reached generalizing before j with
  | nil => simp [reachedOnwards]
  | cons b reached ih =>
      cases j with
      | zero => simp [reachedOnwards, or_comm]
      | succ j =>
          simp only [reachedOnwards, List.getElem?_cons_succ, ih, List.length_cons,
            Nat.add_lt_add_iff_right, Bool.or_eq_true]
          apply and_congr_right
          intro _
          constructor
          · rintro ((h | h) | ⟨i, hi, h⟩)
            · exact Or.inl h
            · exact Or.inr ⟨0, Nat.zero_le _, by simpa using h⟩
            · exact Or.inr ⟨i + 1, Nat.succ_le_succ hi, by simpa using h⟩
          · rintro (h | ⟨i, hi, h⟩)
            · exact Or.inl (Or.inl h)
            · cases i with
              | zero => exact Or.inl (Or.inr (by simpa using h))
              | succ i => exact Or.inr ⟨i, Nat.le_of_succ_le_succ hi, by simpa using h⟩

theorem getElem?_eq_some_iff_prefix {text : List Char} {i : Nat} {c : Char} :
    text[i]? = some c ↔ [c] <+: text.drop i := by
  rw [← List.head?_drop]
  cases text.drop i with
  | nil => simp
  | cons d rest => simp [eq_comm]

/-- One more element reaches the splits up to which it can take a part from a reached one. -/
theorem advance_iff {text : List Char} {reached : List Bool} (t : LikeToken)
    (hlen : reached.length = text.length + 1) {j : Nat} :
    (advance text reached t)[j]? = some true ↔
      ∃ i part, reached[i]? = some true ∧ t.Takes part ∧ part <+: text.drop i ∧
        j = i + part.length := by
  cases t with
  | literal c =>
      simp only [advance, LikeToken.Takes]
      constructor
      · intro h
        cases j with
        | zero => simp at h
        | succ i =>
            simp only [List.getElem?_cons_succ, List.getElem?_map, Option.map_eq_some_iff,
              List.getElem?_zip_eq_some, Prod.exists, Bool.and_eq_true, beq_iff_eq] at h
            obtain ⟨b, d, ⟨hb, hd⟩, rfl, rfl⟩ := h
            exact ⟨i, [d], hb, rfl, getElem?_eq_some_iff_prefix.mp hd, rfl⟩
      · rintro ⟨i, part, hi, rfl, hpart, rfl⟩
        have hc : text[i]? = some c := getElem?_eq_some_iff_prefix.mpr hpart
        simp only [List.length_singleton, List.getElem?_cons_succ, List.getElem?_map,
          Option.map_eq_some_iff, List.getElem?_zip_eq_some, Prod.exists, Bool.and_eq_true,
          beq_iff_eq]
        exact ⟨true, c, ⟨hi, hc⟩, rfl, rfl⟩
  | anyOne =>
      simp only [advance, LikeToken.Takes]
      constructor
      · intro h
        cases j with
        | zero => simp at h
        | succ i =>
            simp only [List.getElem?_cons_succ, List.getElem?_map, Option.map_eq_some_iff,
              List.getElem?_zip_eq_some, Prod.exists] at h
            obtain ⟨b, d, ⟨hb, hd⟩, rfl⟩ := h
            exact ⟨i, [d], hb, rfl, getElem?_eq_some_iff_prefix.mp hd, rfl⟩
      · rintro ⟨i, part, hi, hone, hpart, rfl⟩
        obtain ⟨c, rfl⟩ := List.length_eq_one_iff.mp hone
        have hc : text[i]? = some c := getElem?_eq_some_iff_prefix.mpr hpart
        simp only [List.length_singleton, List.getElem?_cons_succ, List.getElem?_map,
          Option.map_eq_some_iff, List.getElem?_zip_eq_some, Prod.exists]
        exact ⟨true, c, ⟨hi, hc⟩, rfl⟩
  | anyMany =>
      simp only [advance, LikeToken.Takes, true_and]
      rw [getElem?_reachedOnwards, hlen]
      constructor
      · rintro ⟨hj, h | ⟨i, hi, h⟩⟩
        · simp at h
        · refine ⟨i, (text.drop i).take (j - i), h, List.take_prefix _ _, ?_⟩
          rw [List.length_take, List.length_drop]
          omega
      · rintro ⟨i, part, hi, hpart, rfl⟩
        have hle := hpart.length_le
        have hbound : i < reached.length := (List.getElem?_eq_some_iff.mp hi).1
        rw [List.length_drop] at hle
        exact ⟨by omega, Or.inr ⟨i, Nat.le_add_right _ _, hi⟩⟩

theorem length_reachedOnwards (before : Bool) (reached : List Bool) :
    (reachedOnwards before reached).length = reached.length := by
  induction reached generalizing before with
  | nil => rfl
  | cons b reached ih => simp [reachedOnwards, ih]

theorem length_advance {text : List Char} {reached : List Bool} (t : LikeToken)
    (hlen : reached.length = text.length + 1) :
    (advance text reached t).length = text.length + 1 := by
  cases t <;> simp [advance, length_reachedOnwards, hlen]

/-- From any reached splits on, the matcher finds out whether the rest of the text after one of
them matches the rest of the pattern. -/
theorem foldl_advance_iff {text : List Char} (ts : List LikeToken) {reached : List Bool}
    (hlen : reached.length = text.length + 1) :
    (ts.foldl (advance text) reached).getLastD false = true ↔
      ∃ i, reached[i]? = some true ∧ Matches ts (text.drop i) := by
  induction ts generalizing reached with
  | nil =>
      have hlast : reached.getLastD false = true ↔ reached[text.length]? = some true := by
        rw [List.getLastD_eq_getLast?, List.getLast?_eq_getElem?, hlen, Nat.add_sub_cancel]
        cases reached[text.length]? <;> simp
      rw [List.foldl_nil, hlast]
      constructor
      · intro h
        exact ⟨text.length, h, List.drop_length⟩
      · rintro ⟨i, hi, hend⟩
        have hbound : i < reached.length := (List.getElem?_eq_some_iff.mp hi).1
        have hle : text.length ≤ i := List.drop_eq_nil_iff.mp hend
        obtain rfl : i = text.length := by omega
        exact hi
  | cons t ts ih =>
      rw [List.foldl_cons, ih (length_advance t hlen)]
      constructor
      · rintro ⟨j, hj, hrest⟩
        obtain ⟨i, part, hi, ht, ⟨rest, hpart⟩, rfl⟩ := (advance_iff t hlen).mp hj
        refine ⟨i, hi, part, rest, hpart.symm, ht, ?_⟩
        rwa [← List.drop_drop, ← hpart, List.drop_left] at hrest
      · rintro ⟨i, hi, part, rest, hsplit, ht, hrest⟩
        refine ⟨i + part.length, (advance_iff t hlen).mpr
          ⟨i, part, hi, ht, ⟨rest, hsplit.symm⟩, rfl⟩, ?_⟩
        rwa [← List.drop_drop, hsplit, List.drop_left]

/-- The matcher decides whether a text matches a pattern. -/
theorem isMatch_iff (text pattern : String) (escape : Char) :
    isMatch text pattern escape = true ↔ Matches (tokens escape pattern.toList) text.toList := by
  have hlen : (start text.toList).length = text.toList.length + 1 := by simp [start]
  rw [isMatch, matchesTokens, foldl_advance_iff _ hlen]
  constructor
  · rintro ⟨i, hi, h⟩
    cases i with
    | zero => simpa using h
    | succ i => simp [start, List.getElem?_replicate] at hi
  · intro h
    exact ⟨0, rfl, by simpa using h⟩

/-! ### Elements of a pattern -/

/-- The elements that the characters of a pattern stand for. The character behind an escape
character stands for itself, and so does an escape character at the very end. Any other `%` takes
what it can, any other `_` one character, and all other characters stand for themselves. -/
inductive Reads (escape : Char) : List Char → List LikeToken → Prop
  | nil : Reads escape [] []
  | escaped {rest : List Char} {ts : List LikeToken} (c : Char) (h : Reads escape rest ts) :
      Reads escape (escape :: c :: rest) (.literal c :: ts)
  | last : Reads escape [escape] [.literal escape]
  | anyMany {rest : List Char} {ts : List LikeToken} (hescape : escape ≠ '%')
      (h : Reads escape rest ts) : Reads escape ('%' :: rest) (.anyMany :: ts)
  | anyOne {rest : List Char} {ts : List LikeToken} (hescape : escape ≠ '_')
      (h : Reads escape rest ts) : Reads escape ('_' :: rest) (.anyOne :: ts)
  | plain {rest : List Char} {ts : List LikeToken} {c : Char}
      (hc : ¬ (c = escape ∨ c = '%' ∨ c = '_')) (h : Reads escape rest ts) :
      Reads escape (c :: rest) (.literal c :: ts)

theorem tokens_special {escape : Char} (c : Char) (rest : List Char) :
    tokens escape (escape :: c :: rest) = .literal c :: tokens escape rest := by
  simp [tokens]

theorem tokens_plain {escape c : Char} (rest : List Char) (h : ¬ (c = escape ∨ c = '%' ∨ c = '_')) :
    tokens escape (c :: rest) = .literal c :: tokens escape rest := by
  simp only [not_or] at h
  cases rest <;> simp [tokens, h]

theorem tokens_percent {escape : Char} (rest : List Char) (h : escape ≠ '%') :
    tokens escape ('%' :: rest) = .anyMany :: tokens escape rest := by
  cases rest <;> simp [tokens, h.symm]

theorem tokens_underscore {escape : Char} (rest : List Char) (h : escape ≠ '_') :
    tokens escape ('_' :: rest) = .anyOne :: tokens escape rest := by
  cases rest <;> simp [tokens, h.symm]

/-- A pattern has no other elements than those that the matcher goes through. -/
theorem Reads.tokens_eq {escape : Char} {pattern : List Char} {ts : List LikeToken}
    (h : Reads escape pattern ts) : tokens escape pattern = ts := by
  induction h with
  | nil => rfl
  | escaped c _ ih => rw [tokens_special, ih]
  | last => simp [tokens]
  | anyMany hescape _ ih => rw [tokens_percent _ hescape, ih]
  | anyOne hescape _ ih => rw [tokens_underscore _ hescape, ih]
  | plain hc _ ih => rw [tokens_plain _ hc, ih]

/-- The matcher goes through the elements of the pattern. -/
theorem reads_tokens (escape : Char) (pattern : List Char) :
    Reads escape pattern (tokens escape pattern) := by
  -- a last character has no other one behind it to escape, so it has cases of its own
  fun_induction tokens escape pattern with
  | case1 => exact .nil
  | case2 => exact .last
  | case3 h => exact .anyMany (Ne.symm h) .nil
  | case4 h _ => exact .anyOne (Ne.symm h) .nil
  | case5 c hescape hmany hone => exact .plain (by simp [hescape, hmany, hone]) .nil
  | case6 c rest ih => exact .escaped c ih
  | case7 c rest h ih => exact .anyMany (Ne.symm h) ih
  | case8 c rest h _ ih => exact .anyOne (Ne.symm h) ih
  | case9 c d rest hescape hmany hone ih => exact .plain (by simp [hescape, hmany, hone]) ih

/-- A text matches elements when there is one part of it for each of them. -/
theorem matches_iff_exists_parts {ts : List LikeToken} {text : List Char} :
    Matches ts text ↔ ∃ parts, List.Forall₂ LikeToken.Takes ts parts ∧ parts.flatten = text := by
  induction ts generalizing text with
  | nil =>
      constructor
      · rintro rfl
        exact ⟨[], .nil, rfl⟩
      · rintro ⟨parts, ⟨⟩, htext⟩
        exact htext.symm
  | cons t ts ih =>
      constructor
      · rintro ⟨part, rest, rfl, ht, hrest⟩
        obtain ⟨parts, hparts, rfl⟩ := ih.mp hrest
        exact ⟨part :: parts, .cons ht hparts, List.flatten_cons⟩
      · rintro ⟨parts, hparts, rfl⟩
        cases hparts with
        | @cons _ part _ parts ht hrest =>
            exact ⟨part, parts.flatten, List.flatten_cons, ht, ih.mpr ⟨parts, hrest, rfl⟩⟩

/-- A text matches a pattern, by whatever escape character, exactly if it can be split into one
part for each element of the pattern, in order. -/
theorem isMatch_iff_exists_parts (text pattern : String) (escape : Char) :
    isMatch text pattern escape = true ↔
      ∃ elements parts, Reads escape pattern.toList elements ∧
        List.Forall₂ LikeToken.Takes elements parts ∧ parts.flatten = text.toList := by
  rw [isMatch_iff, matches_iff_exists_parts]
  constructor
  · rintro ⟨parts, htakes, htext⟩
    exact ⟨_, parts, reads_tokens escape pattern.toList, htakes, htext⟩
  · rintro ⟨elements, parts, hreads, htakes, htext⟩
    obtain rfl := hreads.tokens_eq
    exact ⟨parts, htakes, htext⟩

/-- Where `%` is the escape character, it is no wildcard. -/
example : isMatch "a%" "_%%" '%' = true ∧ isMatch "ab" "_%%" '%' = false := by decide +kernel

/-! ### Literals -/

/-- An escaped literal is read as the characters of the literal. -/
theorem tokens_escapeChars (escape : Char) (literal rest : List Char) :
    tokens escape (escapeChars escape literal ++ rest) =
      literal.map .literal ++ tokens escape rest := by
  induction literal with
  | nil => rfl
  | cons c literal ih =>
      have hcons : escapeChars escape (c :: literal) =
          (if c = escape ∨ c = '%' ∨ c = '_' then [escape, c] else [c]) ++
            escapeChars escape literal := rfl
      rw [hcons, List.append_assoc]
      split
      · rw [List.cons_append, List.singleton_append, tokens_special, ih]
        rfl
      · next h =>
          rw [List.singleton_append, tokens_plain _ h, ih]
          rfl

theorem matches_literals {literal text : List Char} {ts : List LikeToken} :
    Matches (literal.map .literal ++ ts) text ↔ ∃ rest, text = literal ++ rest ∧ Matches ts rest := by
  induction literal generalizing text with
  | nil => simp
  | cons c literal ih =>
      simp only [List.map_cons, List.cons_append, Matches, LikeToken.Takes, ih]
      constructor
      · rintro ⟨part, rest, rfl, rfl, rest', rfl, h⟩
        exact ⟨rest', rfl, h⟩
      · rintro ⟨rest, rfl, h⟩
        exact ⟨[c], literal ++ rest, rfl, rfl, rest, rfl, h⟩

theorem matches_anyMany (text : List Char) : Matches [.anyMany] text :=
  ⟨text, [], (List.append_nil text).symm, trivial, rfl⟩

/-- The escape character decides how the pattern of a literal at an anchor is written, and not
what its elements are. -/
theorem tokens_wrap_escaped {escape : Char} (hescape : escape ≠ '%') (anchor : Anchor)
    (literal : String) :
    tokens escape (anchor.wrap (escaped escape literal)).toList =
      anchor.elements literal.toList := by
  have hopen : tokens escape ['%'] = [.anyMany] := by
    rw [tokens_percent [] hescape]
    rfl
  cases anchor with
  | start =>
      have hpattern : (Anchor.start.wrap (escaped escape literal)).toList =
          escapeChars escape literal.toList ++ ['%'] := by simp [Anchor.wrap, escaped]
      rw [hpattern, tokens_escapeChars, hopen]
      rfl
  | finish =>
      have hpattern : (Anchor.finish.wrap (escaped escape literal)).toList =
          '%' :: (escapeChars escape literal.toList ++ []) := by simp [Anchor.wrap, escaped]
      rw [hpattern, tokens_percent _ hescape, tokens_escapeChars, tokens, List.append_nil]
      rfl
  | anywhere =>
      have hpattern : (Anchor.anywhere.wrap (escaped escape literal)).toList =
          '%' :: (escapeChars escape literal.toList ++ ['%']) := by simp [Anchor.wrap, escaped]
      rw [hpattern, tokens_percent _ hescape, tokens_escapeChars, hopen]
      rfl

/-- The elements of a literal at an anchor match the literal there, character by character. -/
theorem matches_elements_iff (anchor : Anchor) (literal text : List Char) :
    Matches (anchor.elements literal) text ↔ anchor.Fits literal text := by
  cases anchor with
  | start =>
      rw [Anchor.elements, matches_literals]
      constructor
      · rintro ⟨rest, htext, -⟩
        exact ⟨rest, htext.symm⟩
      · rintro ⟨rest, htext⟩
        exact ⟨rest, htext.symm, matches_anyMany rest⟩
  | finish =>
      rw [Anchor.elements, ← List.append_nil (literal.map _)]
      simp only [Matches, matches_literals]
      constructor
      · rintro ⟨part, rest, htext, -, rest', rfl, rfl⟩
        exact ⟨part, by rw [htext, List.append_nil]⟩
      · rintro ⟨part, htext⟩
        exact ⟨part, literal, htext.symm, trivial, [], (List.append_nil _).symm, rfl⟩
  | anywhere =>
      simp only [Anchor.elements, Matches, matches_literals]
      constructor
      · rintro ⟨part, rest, htext, -, rest', rfl, -⟩
        exact ⟨part, rest', by rw [htext, List.append_assoc]⟩
      · rintro ⟨part, rest', htext⟩
        refine ⟨part, literal ++ rest', ?_, trivial, rest', rfl, matches_anyMany rest'⟩
        rw [← htext, List.append_assoc]

/-- The pattern of a literal at an anchor matches the literal there, character by character. -/
theorem isMatch_wrap_escaped_iff {escape : Char} (hescape : escape ≠ '%') (anchor : Anchor)
    (literal text : String) :
    isMatch text (anchor.wrap (escaped escape literal)) escape = true ↔
      anchor.Fits literal.toList text.toList := by
  rw [isMatch_iff, tokens_wrap_escaped hescape, matches_elements_iff]

/-- Conditions and SQL escape a literal by characters of their own, and their patterns match the
same texts: those with the literal at the anchor, character by character. -/
theorem isMatch_condition_eq_sql (anchor : Anchor) (literal text : String) :
    isMatch text (anchor.wrap (escaped Condition.likeEscape literal)) Condition.likeEscape =
        isMatch text (anchor.wrap (escaped Sql.likeEscape literal)) Sql.likeEscape ∧
      (isMatch text (anchor.wrap (escaped Condition.likeEscape literal)) Condition.likeEscape =
          true ↔
        anchor.Fits literal.toList text.toList) := by
  have hcondition : Condition.likeEscape ≠ '%' := by decide
  have hsql : Sql.likeEscape ≠ '%' := by decide
  refine ⟨?_, isMatch_wrap_escaped_iff hcondition anchor literal text⟩
  rw [isMatch, isMatch, tokens_wrap_escaped hcondition, tokens_wrap_escaped hsql]

end Like

end CriteriaQuery
