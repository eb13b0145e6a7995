import CriteriaQuery.Json.Basic

/-!
# Reading JSON text

The grammar of JSON, with arrays and objects nested at most 127 deep. Of several members
with one key the last counts, in the place of the first. A numeral beyond the range of
64-bit binary numbers makes the text unreadable, and so do a lone surrogate escape, a
control character in a string, and anything but blanks after the value.

## Implementation notes

Readers take the characters that are left and give back a result with those left after it.
The mutual readers take a fuel argument; the length of the text plus one is enough, since
every call but the outermost follows a character taken.
-/

namespace CriteriaQuery.Json

/-- The characters allowed between tokens. -/
def isGap (c : Char) : Bool := c = ' ' ∨ c = '\n' ∨ c = '\t' ∨ c = '\r'

/-- Leaves out the gap before the next token. -/
def skipGap (cs : List Char) : List Char := cs.dropWhile isGap

/-- The number a decimal digit stands for. -/
def digitOf (c : Char) : Nat := c.toNat - '0'.toNat

/-- The number a hexadecimal digit stands for. -/
def hexDigit? (c : Char) : Option Nat :=
  if c.isDigit then some (digitOf c)
  else if 'a' ≤ c ∧ c ≤ 'f' then some (c.toNat - 'a'.toNat + 10)
  else if 'A' ≤ c ∧ c ≤ 'F' then some (c.toNat - 'A'.toNat + 10)
  else none

/-- Four hexadecimal digits as one number. -/
def hexUnit? : List Char → Option (Nat × List Char)
  | a :: b :: c :: d :: rest => do
    let a ← hexDigit? a
    let b ← hexDigit? b
    let c ← hexDigit? c
    let d ← hexDigit? d
    return (((a * 16 + b) * 16 + c) * 16 + d, rest)
  | _ => none

/-- The character of an escape of one letter. -/
def simpleEscape? : Char → Option Char
  | '"' => some '"'
  | '\\' => some '\\'
  | '/' => some '/'
  | 'b' => some '\x08'
  | 'f' => some '\x0c'
  | 'n' => some '\n'
  | 'r' => some '\r'
  | 't' => some '\t'
  | _ => none

/-- The character of an escape by code units, after the letter that announces it. -/
def unitEscape? (cs : List Char) : Option (Char × List Char) := do
  let (unit, rest) ← hexUnit? cs
  if 0xDC00 ≤ unit ∧ unit ≤ 0xDFFF then none
  else if 0xD800 ≤ unit ∧ unit ≤ 0xDBFF then
    match rest with
    | '\\' :: 'u' :: rest =>
      let (low, rest) ← hexUnit? rest
      if 0xDC00 ≤ low ∧ low ≤ 0xDFFF then
        return (Char.ofNat (0x10000 + (unit - 0xD800) * 0x400 + (low - 0xDC00)), rest)
      else none
    | _ => none
  else return (Char.ofNat unit, rest)

/-- The characters of a string up to its closing quote, after those in `taken`. -/
def stringBody? : Nat → List Char → List Char → Option (String × List Char)
  | 0, _, _ => none
  | _ + 1, _, [] => none
  | fuel + 1, taken, c :: rest =>
    if c = '"' then some (String.ofList taken.reverse, rest)
    else if c = '\\' then
      match rest with
      | 'u' :: rest => do
        let (e, rest) ← unitEscape? rest
        stringBody? fuel (e :: taken) rest
      | e :: rest => do
        let e ← simpleEscape? e
        stringBody? fuel (e :: taken) rest
      | [] => none
    else if c.toNat < 0x20 then none
    else stringBody? fuel (c :: taken) rest

/-- The digits of one or more, and what is left. -/
def digits? (cs : List Char) : Option (List Nat × List Char) :=
  match cs.takeWhile Char.isDigit with
  | [] => none
  | ds => some (ds.map digitOf, cs.dropWhile Char.isDigit)

/-- The digits before the point: a lone zero, or digits that do not start with zero. -/
def whole? : List Char → Option (List Nat × List Char)
  | '0' :: rest =>
    match rest with
    | c :: _ => if c.isDigit then none else some ([0], rest)
    | [] => some ([0], [])
  | cs => digits? cs

/-- The digits after the point, if there is one. -/
def fraction? : List Char → Option (Option (List Nat) × List Char)
  | '.' :: rest => (digits? rest).map fun (ds, rest) => (some ds, rest)
  | cs => some (none, cs)

/-- The number that digits stand for. -/
def ofDigits (ds : List Nat) : Nat := ds.foldl (fun n d => n * 10 + d) 0

/-- The digits of an exponent after its sign. -/
def exponentDigits? (negative : Bool) (cs : List Char) : Option (Option Int × List Char) :=
  (digits? cs).map fun (ds, rest) =>
    (some (if negative then -(ofDigits ds : Int) else ofDigits ds), rest)

/-- The exponent, if there is one. -/
def exponent? : List Char → Option (Option Int × List Char)
  | [] => some (none, [])
  | c :: rest =>
    if c = 'e' ∨ c = 'E' then
      match rest with
      | '+' :: rest => exponentDigits? false rest
      | '-' :: rest => exponentDigits? true rest
      | rest => exponentDigits? false rest
    else some (none, c :: rest)

/-- A numeral and what it denotes. -/
def number? (cs : List Char) : Option (Number × List Char) := do
  let (negative, cs) := match cs with
    | '-' :: rest => (true, rest)
    | cs => (false, cs)
  let (whole, cs) ← whole? cs
  let (fraction, cs) ← fraction? cs
  let (exponent, cs) ← exponent? cs
  let value ← (Numeral.mk negative whole fraction exponent).number?
  return (value, cs)

/-- What is left after a word that must come next. -/
def after? : List Char → List Char → Option (List Char)
  | [], cs => some cs
  | w :: ws, c :: cs => if w = c then after? ws cs else none
  | _ :: _, [] => none

mutual

/-- The next value; `depth` more levels of nesting are allowed. -/
def value? : Nat → Nat → List Char → Option (Json × List Char)
  | 0, _, _ => none
  | fuel + 1, depth, cs =>
    match skipGap cs with
    | [] => none
    | c :: rest =>
      if c = 'n' then (after? "ull".toList rest).map fun rest => (.null, rest)
      else if c = 't' then (after? "rue".toList rest).map fun rest => (.bool true, rest)
      else if c = 'f' then (after? "alse".toList rest).map fun rest => (.bool false, rest)
      else if c = '"' then
        (stringBody? (rest.length + 1) [] rest).map fun (s, rest) => (.string s, rest)
      else if c = '[' then
        match depth with
        | 0 => none
        | depth + 1 =>
          match skipGap rest with
          | ']' :: rest => some (.array [], rest)
          | rest => (items? fuel depth [] rest).map fun (items, rest) => (.array items, rest)
      else if c = '\x7b' then
        match depth with
        | 0 => none
        | depth + 1 =>
          match skipGap rest with
          | '\x7d' :: rest => some (.object [], rest)
          | rest => (members? fuel depth [] rest).map fun (ms, rest) => (.object ms, rest)
      else (number? (c :: rest)).map fun (n, rest) => (.number n, rest)

/-- The items of an array that is not empty, after those in `taken`. -/
def items? : Nat → Nat → List Json → List Char → Option (List Json × List Char)
  | 0, _, _, _ => none
  | fuel + 1, depth, taken, cs => do
    let (item, rest) ← value? fuel depth cs
    match skipGap rest with
    | ',' :: rest => items? fuel depth (item :: taken) rest
    | ']' :: rest => return ((item :: taken).reverse, rest)
    | _ => none

/-- The members of an object that is not empty, after those in `taken`. -/
def members? : Nat → Nat → List (String × Json) → List Char →
    Option (List (String × Json) × List Char)
  | 0, _, _, _ => none
  | fuel + 1, depth, taken, cs =>
    match skipGap cs with
    | '"' :: rest => do
      let (key, rest) ← stringBody? (rest.length + 1) [] rest
      match skipGap rest with
      | ':' :: rest =>
        let (value, rest) ← value? fuel depth rest
        match skipGap rest with
        | ',' :: rest => members? fuel depth (setMember key value taken) rest
        | '\x7d' :: rest => return (setMember key value taken, rest)
        | _ => none
      | _ => none
    | _ => none

end

/-- The deepest nesting of arrays and objects that is read. -/
def nestingLimit : Nat := 127

/-- The value that a text is. -/
def read? (text : String) : Option Json :=
  let cs := text.toList
  match value? (2 * cs.length + 2) nestingLimit cs with
  | some (v, rest) => if (skipGap rest).isEmpty then some v else none
  | none => none

end CriteriaQuery.Json
