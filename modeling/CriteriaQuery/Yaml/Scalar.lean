import CriteriaQuery.Json.Reader
import CriteriaQuery.Yaml.Source

/-!
# YAML scalars

The five ways to write a text: plain, between single quotes, between double quotes, and as
a literal or a folded block. In the first three and in folded blocks a single line break
between words becomes a blank, and of several line breaks all but the first are kept.

## Implementation notes

What has been read of a text is held with the latest character first, so that adding to it
takes the same time however long it is. Readers that repeat over words or lines of several
parts take a fuel argument; each round takes a character, so one more than the characters left
is enough.
-/

namespace CriteriaQuery.Yaml

/-- What stands between two words: blanks of a line, or line breaks with blanks around them. The
latest character comes first. -/
inductive Gap
  | blanks (cs : List Char)
  | breaks (first : List Char) (more : List Char)

namespace Gap

/-- No characters. -/
def none : Gap := .blanks []

/-- The text that a gap becomes, the latest character first. -/
def text : Gap → List Char
  | .blanks cs => cs
  | .breaks ['\n'] [] => [' ']
  | .breaks ['\n'] more => more
  | .breaks first more => more ++ first

/-- Whether there is a line break in the gap. -/
def hasBreak : Gap → Bool
  | .blanks _ => false
  | .breaks _ _ => true

/-- A gap with one more blank. -/
def addBlank (c : Char) : Gap → Gap
  | .blanks cs => .blanks (c :: cs)
  | .breaks first more => .breaks first more

/-- A gap with one more line break. -/
def addBreak (c : Char) : Gap → Gap
  | .blanks _ => .breaks [c] []
  | .breaks first more => .breaks first (c :: more)

/-- The whole gap. After a line break no tab may stand left of the column `indent`. -/
def read? (indent : Nat) (gap : Gap) (s : Source) : Option (Gap × Source) :=
  match _h : s.rest with
  | [] => some (gap, s)
  | c :: _ =>
    if isBlank c then
      if gap.hasBreak && c = '\t' && s.column < indent then Option.none
      else read? indent (gap.addBlank c) (s.skip 1)
    else if isBreak c then read? indent (gap.addBreak (breakText c)) s.skipBreak
    else some (gap, s)
termination_by s.rest.length
decreasing_by
  · exact Source.length_skip_lt (by decide) (by simp [_h])
  · exact Source.length_skipBreak_lt (by simp [_h])

end Gap

/-! ### Plain scalars -/

/-- The characters that end a word between brackets. -/
def isFlowIndicator (c : Char) : Bool := c = ',' || c = '[' || c = ']' || c = '\x7b' || c = '\x7d'

/-- A word of a plain scalar. Between brackets a colon may not stand before an indicator. -/
def plainWord? (inFlow : Bool) : List Char → Option (List Char)
  | [] => some []
  | c :: rest =>
    if isBlank c || isBreak c then some []
    else if inFlow && c = ':' && rest.head?.any (fun d => isFlowIndicator d || d = '?') then none
    else if c = ':' && endsWord rest || inFlow && isFlowIndicator c then some []
    else (plainWord? inFlow rest).map (c :: ·)

/-- The rest of a plain scalar after `text` and a gap, and whether a line break comes last. -/
def plainRest? (inFlow : Bool) (indent : Nat) :
    Nat → List Char → Gap → Source → Option (List Char × Bool × Source)
  | 0, _, _, _ => none
  | fuel + 1, text, gap, s =>
    if s.atMark || s.peek? = some '#' then some (text, gap.hasBreak, s)
    else do
      let word ← plainWord? inFlow s.rest
      let (text, gap) :=
        if word.isEmpty then (text, gap) else (word.reverseAux (gap.text ++ text), Gap.none)
      let s := s.skip word.length
      match s.rest with
      | c :: _ =>
        if isBlank c || isBreak c then
          let (gap, s) ← gap.read? indent s
          if !inFlow && s.column < indent then return (text, gap.hasBreak, s)
          else plainRest? inFlow indent fuel text gap s
        else return (text, gap.hasBreak, s)
      | [] => return (text, gap.hasBreak, s)

/-- A plain scalar, and whether a line break comes after it. -/
def plain? (inFlow : Bool) (indent : Nat) (s : Source) : Option (String × Bool × Source) :=
  (plainRest? inFlow indent (s.rest.length + 1) [] .none s).map fun (text, ended, s) =>
    (String.ofList text.reverse, ended, s)

/-! ### Quoted scalars -/

/-- The number that hexadecimal digits stand for. -/
def hexNumber? : Nat → List Char → Option Nat
  | n, [] => some n
  | n, c :: cs =>
    match Json.hexDigit? c with
    | some d => hexNumber? (n * 16 + d) cs
    | none => none

/-- The character of an escape by its code, which has `digits` hexadecimal digits. -/
def codeEscape? (digits : Nat) (cs : List Char) : Option (Char × Nat) := do
  if cs.length < digits then none
  let n ← hexNumber? 0 (cs.take digits)
  if n.isValidChar then return (Char.ofNat n, digits + 1) else none

/-- The character of an escape after its backslash, and how many characters it takes. -/
def escape? : List Char → Option (Char × Nat)
  | '0' :: _ => some ('\x00', 1)
  | 'a' :: _ => some ('\x07', 1)
  | 'b' :: _ => some ('\x08', 1)
  | 't' :: _ => some ('\t', 1)
  | '\t' :: _ => some ('\t', 1)
  | 'n' :: _ => some ('\n', 1)
  | 'v' :: _ => some ('\x0b', 1)
  | 'f' :: _ => some ('\x0c', 1)
  | 'r' :: _ => some ('\r', 1)
  | 'e' :: _ => some ('\x1b', 1)
  | ' ' :: _ => some (' ', 1)
  | '"' :: _ => some ('"', 1)
  | '/' :: _ => some ('/', 1)
  | '\\' :: _ => some ('\\', 1)
  | 'N' :: _ => some ('\u0085', 1)
  | '_' :: _ => some ('\u00a0', 1)
  | 'L' :: _ => some ('\u2028', 1)
  | 'P' :: _ => some ('\u2029', 1)
  | 'x' :: rest => codeEscape? 2 rest
  | 'u' :: rest => codeEscape? 4 rest
  | 'U' :: rest => codeEscape? 8 rest
  | _ => none

/-- A word between single quotes after `text`. A quote in it is written twice. -/
def singleWord : List Char → List Char → Source → List Char × Source
  | '\'' :: '\'' :: rest, text, s => singleWord rest ('\'' :: text) (s.skip 2)
  | c :: rest, text, s =>
    if isBlank c || isBreak c || c = '\'' then (text, s)
    else singleWord rest (c :: text) (s.skip 1)
  | [], text, s => (text, s)

/-- A word between double quotes after `text`, and the gap that an escaped line break starts. -/
def doubleWord? (text : List Char) (s : Source) : Option (List Char × Gap × Source) :=
  match _h : s.rest with
  | [] => some (text, .none, s)
  | c :: rest =>
    if isBlank c || isBreak c || c = '"' then some (text, .none, s)
    else if c = '\\' then
      if rest.head?.any isBreak then some (text, .breaks [] [], (s.skip 1).skipBreak)
      else do
        let (e, n) ← escape? rest
        doubleWord? (e :: text) (s.skip (n + 1))
    else doubleWord? (c :: text) (s.skip 1)
termination_by s.rest.length
decreasing_by all_goals exact Source.length_skip_lt (by omega) (by simp [_h])

/-- A word between quotes after `text`. -/
def quotedWord? (quote : Char) (text : List Char) (s : Source) :
    Option (List Char × Gap × Source) :=
  if quote = '"' then doubleWord? text s
  else
    let (text, s) := singleWord s.rest text s
    some (text, .none, s)

/-- The rest of a quoted scalar after its quote and `text`. -/
def quotedRest? (quote : Char) : Nat → List Char → Source → Option (List Char × Source)
  | 0, _, _ => none
  | fuel + 1, text, s =>
    if s.atMark || s.rest.isEmpty then none
    else do
      let (text, gap, s) ← quotedWord? quote text s
      if s.peek? = some quote then return (text, s.skip 1)
      else
        let (gap, s) ← gap.read? 0 s
        quotedRest? quote fuel (gap.text ++ text) s

/-- A quoted scalar at its first quote. -/
def quoted? (quote : Char) (s : Source) : Option (String × Source) :=
  (quotedRest? quote (s.rest.length + 1) [] (s.skip 1)).map fun (text, s) =>
    (String.ofList text.reverse, s)

/-! ### Block scalars -/

/-- What becomes of the line breaks at the end of a block. -/
inductive Chomping
  | strip
  | clip
  | keep
deriving DecidableEq

/-- The chomping that an indicator asks for. -/
def Chomping.ofChar? : Char → Option Chomping
  | '-' => some .strip
  | '+' => some .keep
  | _ => none

/-- The indentation that an indicator asks for; a zero is refused by `none` inside. -/
def increment? (c : Char) : Option (Option Nat) :=
  if c.isDigit then some (if c = '0' then none else some (Json.digitOf c)) else none

/-- The header of a block: its chomping, its indentation, and how many characters it takes. -/
def blockHeader? (cs : List Char) : Option (Chomping × Option Nat × Nat) :=
  match cs with
  | [] => some (.clip, none, 0)
  | c :: rest =>
    match Chomping.ofChar? c, increment? c with
    | some chomping, _ =>
      match rest.head?.bind increment? with
      | some digit => digit.map fun n => (chomping, some n, 2)
      | none => some (chomping, none, 1)
    | none, some digit => do
      let n ← digit
      match rest.head?.bind Chomping.ofChar? with
      | some chomping => return (chomping, some n, 2)
      | none => return (.clip, some n, 1)
    | none, none => some (.clip, none, 0)

/-- The line breaks before a line of a block after `breaks`, with the indentation of the lines
in between. An indentation that is not known yet lets all blanks through. -/
def blockBreaks? (indent : Option Nat) (widest : Nat) (breaks : List Char) (s : Source) :
    Option (List Char × Nat × Source) :=
  let blanks := (s.rest.takeWhile (· = ' ')).length
  let next := s.skip (match indent with
    | some n => min blanks (n - s.column)
    | none => blanks)
  let widest := max widest next.column
  if next.peek? = some '\t' && indent.all (next.column < ·) then none
  else
    match _h : next.rest with
    | c :: _ =>
      if isBreak c then blockBreaks? indent widest (breakText c :: breaks) next.skipBreak
      else some (breaks, widest, next)
    | [] => some (breaks, widest, next)
termination_by s.rest.length
decreasing_by
  have := Source.length_skipBreak_lt fun h => List.cons_ne_nil _ _ (_h.symm.trans h)
  exact Nat.lt_of_lt_of_le this Source.length_skip_le

/-- The lines of a block, after the text, the last line's break and the breaks after that. -/
def blockLines? (folded : Bool) (indent : Nat) :
    Nat → List Char → List Char → List Char → Bool → Source →
      Option (List Char × List Char × List Char × Source)
  | 0, _, _, _, _, _ => none
  | fuel + 1, text, last, breaks, afterBlank, s =>
    if s.column ≠ indent || s.rest.isEmpty then some (text, last, breaks, s)
    else do
      let blank := s.rest.head?.any isBlank
      let between :=
        if folded && last = ['\n'] && !afterBlank && !blank then
          if breaks.isEmpty then [' '] else []
        else last
      let line := s.rest.takeWhile fun c => !isBreak c
      let s := s.skip line.length
      let last := (s.rest.head?.map breakText).toList
      let s := s.skipBreak
      let (breaks', _, s) ← blockBreaks? (some indent) 0 [] s
      let text := line.reverseAux (breaks ++ (between ++ text))
      blockLines? folded indent fuel text last breaks' blank s

/-- A block scalar after its indicator, in a collection indented by `parent`, which is `-1`
outside of all collections. -/
def block? (folded : Bool) (parent : Int) (s : Source) : Option (String × Source) := do
  let (chomping, increment, n) ← blockHeader? s.rest
  let s ← (s.skip n).nextLine?
  let given := increment.map fun n => if 0 ≤ parent then parent.toNat + n else n
  let (breaks, widest, s) ← blockBreaks? given 0 [] s
  let indent := given.getD (max (max widest (parent + 1).toNat) 1)
  let (text, last, breaks, s) ←
    blockLines? folded indent (s.rest.length + 1) [] [] breaks false s
  let tail := match chomping with
    | .strip => []
    | .clip => last
    | .keep => breaks ++ last
  return (String.ofList (tail ++ text).reverse, s)

end CriteriaQuery.Yaml
