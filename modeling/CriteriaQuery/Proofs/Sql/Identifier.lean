import CriteriaQuery.Proofs.Document.Grammar
import CriteriaQuery.Proofs.Sql.Reading

/-!
# Identifiers that are read back

A dialect reads an identifier up to the quote that closes it, with doubled quotes undone, or as a
bare word, which PostgreSQL folds to lower case. It reads back what it has written, whatever the
characters of the identifier are and whatever follows that cannot belong to it. What it writes bare
is never a reserved word.
-/

namespace CriteriaQuery

namespace Dialect

/-- An identifier that is read: its name, and whether it stands between quotes. -/
structure Identifier where
  name : String
  quoted : Bool
deriving DecidableEq

/-- The name that a bare word stands for. -/
def folded (d : Dialect) (w : String) : String :=
  match d with
  | .mysql => w
  | .postgres => w.toLower

/-- The identifier at the start of a text, and what follows it. -/
def readIdentifier? (d : Dialect) : List Char → Option (Identifier × List Char)
  | [] => none
  | c :: cs =>
    if c = d.quoteChar then
      (Sql.closeQuote c cs).map fun e => (⟨String.ofList e.1, true⟩, e.2)
    else if Sql.isWordChar c then
      some (⟨d.folded (String.ofList (c :: cs.takeWhile Sql.isWordChar)), false⟩,
        cs.dropWhile Sql.isWordChar)
    else none

/-- The two identifiers with a point between them at the start of a text, and what follows. -/
def readQualified? (d : Dialect) (cs : List Char) :
    Option (Identifier × Identifier × List Char) := do
  let (owner, rest) ← d.readIdentifier? cs
  match rest with
  | '.' :: rest => do
    let (name, rest) ← d.readIdentifier? rest
    return (owner, name, rest)
  | _ => none

/-- Whether an identifier that stands before a text ends there: nothing follows, or a character that
neither closes a quote nor goes on with a word. -/
def Ends (d : Dialect) (rest : List Char) : Prop :=
  ∀ c ∈ rest.head?, c ≠ d.quoteChar ∧ Sql.isWordChar c = false

theorem ends_point (d : Dialect) (rest : List Char) : d.Ends ('.' :: rest) := by
  intro c hc
  obtain rfl : '.' = c := by simpa using hc
  cases d <;> decide

theorem isWordChar_quoteChar (d : Dialect) : Sql.isWordChar d.quoteChar = false := by
  cases d <;> decide

/-- A name that needs no quotes is a word which stands for itself. -/
theorem bare_spec {d : Dialect} {name : String} (h : d.needsQuoting name = false) :
    d.isReserved name = false ∧ isPlain name.toList = true ∧ d.folded name = name := by
  simp only [needsQuoting, Bool.or_eq_false_iff, Bool.not_eq_false'] at h
  obtain ⟨⟨hreserved, hplain⟩, hfolds⟩ := h
  refine ⟨hreserved, hplain, ?_⟩
  cases d with
  | mysql => rfl
  | postgres => exact Sql.toLower_eq_self hfolds

/-- A quoted name is read up to the quote that closes it. -/
theorem readIdentifier?_quote (d : Dialect) (name : String) {rest : List Char} (h : d.Ends rest) :
    d.readIdentifier? ((d.quote name).toList ++ rest) = some (⟨name, true⟩, rest) := by
  have hclose : Sql.closeQuote d.quoteChar
      (doubled d.quoteChar name.toList ++ d.quoteChar :: rest) = some (name.toList, rest) :=
    Sql.closeQuote_doubled name.toList rest fun c hc => (h c hc).1
  rw [quote, String.toList_ofList, List.append_assoc, List.cons_append, List.singleton_append,
    readIdentifier?, if_pos rfl, hclose, Option.map_some, String.ofList_toList]

/-- A bare name is read as far as its word goes. -/
theorem readIdentifier?_bare {d : Dialect} {name : String} {rest : List Char}
    (hbare : d.needsQuoting name = false) (h : d.Ends rest) :
    d.readIdentifier? (name.toList ++ rest) = some (⟨name, false⟩, rest) := by
  obtain ⟨-, hplain, hfolded⟩ := bare_spec hbare
  obtain ⟨hne, hword⟩ := Sql.isPlain_spec hplain
  obtain ⟨c, cs, hname⟩ := List.exists_cons_of_ne_nil hne
  rw [hname] at hword
  have hc : Sql.isWordChar c = true := hword c List.mem_cons_self
  have hquote : c ≠ d.quoteChar := by
    rintro rfl
    simp [isWordChar_quoteChar] at hc
  obtain ⟨htake, hdrop⟩ := Sql.run_append
    (fun a ha => hword a (List.mem_cons_of_mem c ha)) fun a ha => (h a ha).2
  rw [hname, List.cons_append, readIdentifier?, if_neg hquote, if_pos hc, htake, hdrop, ← hname,
    String.ofList_toList, hfolded]

/-- A dialect reads back the identifier that it has written. -/
theorem readIdentifier?_escapeIdentifier (d : Dialect) (name : String) {rest : List Char}
    (h : d.Ends rest) :
    d.readIdentifier? ((d.escapeIdentifier name).toList ++ rest) =
      some (⟨name, d.needsQuoting name⟩, rest) := by
  unfold escapeIdentifier
  cases hneeds : d.needsQuoting name with
  | true => exact readIdentifier?_quote d name h
  | false => exact readIdentifier?_bare hneeds h

theorem readQualified?_escape (d : Dialect) (table column : String) {rest : List Char}
    (h : d.Ends rest) :
    d.readQualified? ((d.escape column (some table)).toList ++ rest) =
      some (⟨table, d.needsQuoting table⟩, ⟨column, d.needsQuoting column⟩, rest) := by
  have htext : (d.escape column (some table)).toList ++ rest =
      (d.escapeIdentifier table).toList ++
        '.' :: ((d.escapeIdentifier column).toList ++ rest) := by
    simp [escape_some]
  rw [readQualified?, htext, readIdentifier?_escapeIdentifier d table (d.ends_point _)]
  simp [readIdentifier?_escapeIdentifier d column h]

/-! ### Reserved words -/

/-- Reserved words are listed in capital letters. -/
theorem isUpper_of_mem_reservedWords {d : Dialect} {w : String} (h : w ∈ d.reservedWords) :
    ∀ k ∈ w.toList, k.isUpper = true ∨ k = '_' := by
  have hall : d.reservedWords.all fun w => w.toList.all fun k => k.isUpper || k = '_' := by
    cases d <;> decide +kernel
  simpa using List.all_eq_true.mp (List.all_eq_true.mp hall w h)

theorem map_toUpper_of_forall₂ {cs ks : List Char}
    (h : List.Forall₂ (fun c k => c = k ∨ c = k.toLower) cs ks)
    (hks : ∀ k ∈ ks, k.isUpper = true ∨ k = '_') : cs.map Char.toUpper = ks := by
  induction h with
  | nil => rfl
  | @cons c k cs ks hc _ ih =>
      rw [List.map_cons, ih fun k' hk' => hks k' (List.mem_cons_of_mem k hk')]
      rcases hks k List.mem_cons_self with hk | rfl
      · rw [(toUpper_eq_iff hk).mpr hc]
      · rcases hc with rfl | rfl <;> rfl

/-- What spells a reserved word is reserved. -/
theorem isReserved_of_spells {d : Dialect} {name w : String} (hw : w ∈ d.reservedWords)
    (h : Spells name w) : d.isReserved name = true := by
  have hname : name.toUpper = w := by
    rw [Sql.toUpper_eq_ofList, map_toUpper_of_forall₂ h (isUpper_of_mem_reservedWords hw),
      String.ofList_toList]
  rw [isReserved, hname]
  exact List.contains_iff_mem.mpr hw

/-- A dialect reads back a column that it has written, with its table, whatever their characters are
and whatever follows. No part that stands bare spells a reserved word, and another table or column
is written differently. -/
theorem exists_readQualified?_escape (d : Dialect) (table column : String) (rest : List Char)
    (h : ∀ c ∈ rest.head?, c ≠ d.quoteChar ∧ Sql.isWordChar c = false) :
    ∃ owner name : Identifier,
      d.readQualified? ((d.escape column (some table)).toList ++ rest) =
        some (owner, name, rest) ∧
      owner.name = table ∧ name.name = column ∧
      (∀ part ∈ [owner, name], part.quoted = false → ∀ w ∈ d.reservedWords, ¬ Spells part.name w) ∧
      ∀ table' column', d.escape column' (some table') = d.escape column (some table) →
        table' = table ∧ column' = column := by
  refine ⟨_, _, readQualified?_escape d table column h, rfl, rfl, ?_, ?_⟩
  · intro part hpart hbare w hw hspells
    have hname : d.needsQuoting part.name = false := by
      simp only [List.mem_cons, List.not_mem_nil, or_false] at hpart
      rcases hpart with rfl | rfl <;> exact hbare
    have hreserved := isReserved_of_spells hw hspells
    simp [(bare_spec hname).1] at hreserved
  · intro table' column' heq
    have hread := readQualified?_escape d table' column' h
    rw [heq, readQualified?_escape d table column h] at hread
    simp only [Option.some.injEq, Prod.mk.injEq, Identifier.mk.injEq] at hread
    exact ⟨hread.1.1.symm, hread.2.1.1.symm⟩

/-- A table made of quotes, a column that holds a point and a line break, and an operator. -/
theorem exists_readQualified?_escape_quotes :
    (∀ c ∈ [' ', '=', ' ', '?'].head?, c ≠ Dialect.postgres.quoteChar ∧
        Sql.isWordChar c = false) ∧
      ∃ owner name : Identifier,
        Dialect.postgres.readQualified?
            ((Dialect.postgres.escape "a.\"\n" (some "\"\"")).toList ++ [' ', '=', ' ', '?']) =
          some (owner, name, [' ', '=', ' ', '?']) ∧
        owner.name = "\"\"" ∧ name.name = "a.\"\n" ∧
        (∀ part ∈ [owner, name], part.quoted = false →
          ∀ w ∈ Dialect.postgres.reservedWords, ¬ Spells part.name w) ∧
        ∀ table' column', Dialect.postgres.escape column' (some table') =
            Dialect.postgres.escape "a.\"\n" (some "\"\"") →
          table' = "\"\"" ∧ column' = "a.\"\n" := by
  have hends : ∀ c ∈ [' ', '=', ' ', '?'].head?, c ≠ Dialect.postgres.quoteChar ∧
      Sql.isWordChar c = false := by
    intro c hc
    obtain rfl : ' ' = c := by simpa using hc
    decide
  exact ⟨hends, exists_readQualified?_escape .postgres "\"\"" "a.\"\n" [' ', '=', ' ', '?'] hends⟩

end Dialect

end CriteriaQuery
