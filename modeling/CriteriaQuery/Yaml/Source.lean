/-!
# YAML text with positions

The characters of a YAML text that are left to read, with the place that they start at: the
octets before them in UTF-8, the line, and the column, which counts characters. Lines end at
a line feed, a carriage return, both in this order, or one of the three further line breaks of
Unicode; the last two of these keep their character where line breaks become part of a text,
and all others become a line feed.
-/

namespace CriteriaQuery.Yaml

/-- The characters that may stand in a text. -/
def isAllowed (c : Char) : Bool :=
  let n := c.toNat
  n = 0x09 || n = 0x0A || n = 0x0D || (0x20 ≤ n && n ≤ 0x7E) || n = 0x85 ||
    (0xA0 ≤ n && n ≤ 0xFFFD) || 0x10000 ≤ n

/-- A line break. -/
def isBreak (c : Char) : Bool :=
  c = '\n' || c = '\r' || c = '\u0085' || c = '\u2028' || c = '\u2029'

/-- A blank within a line. -/
def isBlank (c : Char) : Bool := c = ' ' || c = '\t'

/-- The characters of anchors, of directives and of tag handles. -/
def isWordChar (c : Char) : Bool := c.isAlphanum || c = '_' || c = '-'

/-- Whether a word is over: at a blank, a line break or the end. -/
def endsWord : List Char → Bool
  | [] => true
  | c :: _ => isBlank c || isBreak c

/-- The character that a line break becomes in a text. -/
def breakText (c : Char) : Char := if c = '\u2028' || c = '\u2029' then c else '\n'

/-- Whether three characters, with a word's end after them, mark the bounds of a document. -/
def isMark (c : Char) : List Char → Bool
  | a :: b :: d :: rest => a = c && b = c && d = c && endsWord rest
  | _ => false

/-- How many octets characters take in UTF-8. -/
def octetCount (cs : List Char) : Nat := cs.foldl (fun n c => n + c.utf8Size) 0

/-- What is left of a text, and where it starts. -/
structure Source where
  rest : List Char
  /-- The count of the octets before it. -/
  offset : Nat := 0
  line : Nat := 0
  /-- The count of the characters before it on its line. -/
  column : Nat := 0

namespace Source

/-- The next character. -/
def peek? (s : Source) : Option Char := s.rest.head?

/-- Leaves out characters of the line. -/
def skip (n : Nat) (s : Source) : Source :=
  { s with
    rest := s.rest.drop n
    offset := s.offset + octetCount (s.rest.take n)
    column := s.column + n }

/-- Leaves out the characters of the line that satisfy a test. -/
def skipWhile (p : Char → Bool) (s : Source) : Source := s.skip (s.rest.takeWhile p).length

/-- Leaves out a line break. -/
def skipBreak (s : Source) : Source :=
  match s.rest with
  | '\r' :: '\n' :: rest => ⟨rest, s.offset + 2, s.line + 1, 0⟩
  | c :: rest => ⟨rest, s.offset + c.utf8Size, s.line + 1, 0⟩
  | [] => s

/-- Leaves out the characters of the line that satisfy a test, and a comment after them. -/
def skipComment (p : Char → Bool) (s : Source) : Source :=
  let s := s.skipWhile p
  if s.peek? = some '#' then s.skipWhile fun c => !isBreak c else s

/-- Leaves out a byte order mark at the start of a line. -/
def skipOrderMark (s : Source) : Source :=
  if s.column = 0 && s.peek? = some '\ufeff' then s.skip 1 else s

/-- The start of the next line, when only blanks and a comment are left on this one. -/
def nextLine? (s : Source) : Option Source :=
  let s := s.skipComment isBlank
  match s.rest with
  | [] => some s
  | c :: _ => if isBreak c then some s.skipBreak else none

/-- Whether a document starts or ends at this place. -/
def atMark (s : Source) : Bool := s.column = 0 && (isMark '-' s.rest || isMark '.' s.rest)

theorem length_skip_le {s : Source} {n : Nat} : (s.skip n).rest.length ≤ s.rest.length := by
  simp [skip]

theorem length_skip_lt {s : Source} {n : Nat} (hn : 0 < n) (hs : s.rest ≠ []) :
    (s.skip n).rest.length < s.rest.length := by
  have := List.length_pos_iff.mpr hs
  simp only [skip, List.length_drop]
  omega

theorem length_skipWhile_le {s : Source} {p : Char → Bool} :
    (s.skipWhile p).rest.length ≤ s.rest.length :=
  length_skip_le

theorem length_skipComment_le {s : Source} {p : Char → Bool} :
    (s.skipComment p).rest.length ≤ s.rest.length := by
  unfold skipComment
  dsimp only
  split
  · exact Nat.le_trans length_skipWhile_le length_skipWhile_le
  · exact length_skipWhile_le

theorem length_skipOrderMark_le {s : Source} : s.skipOrderMark.rest.length ≤ s.rest.length := by
  unfold skipOrderMark
  split
  · exact length_skip_le
  · exact Nat.le_refl _

theorem length_skipBreak_lt {s : Source} (hs : s.rest ≠ []) :
    s.skipBreak.rest.length < s.rest.length := by
  unfold skipBreak
  split
  · next h =>
    simp only [h, List.length_cons]
    omega
  · next h =>
    simp only [h, List.length_cons]
    omega
  · next h => exact absurd h hs

end Source

end CriteriaQuery.Yaml
