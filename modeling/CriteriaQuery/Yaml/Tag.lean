import CriteriaQuery.Json.Reader
import CriteriaQuery.Yaml.Source

/-!
# YAML tags

A tag is a sequence of octets: its characters in UTF-8, and the octets that escapes stand for.
Escaped octets have to follow each other as the octets of characters do, but need not be the
octets of any character. No part of a tag has a zero octet; what follows one is left out. A tag
that starts with an exclamation mark is a local one, and has a name when the octets after the
mark are a text.
-/

namespace CriteriaQuery.Yaml

/-- A tag, or a part of one. -/
structure Tag where
  octets : List UInt8
deriving DecidableEq

namespace Tag

/-- The part that octets are, up to the first zero. -/
def ofOctets (octets : List UInt8) : Tag := ⟨octets.takeWhile (· ≠ 0)⟩

/-- The octets of characters in UTF-8. -/
def octetsOf (cs : List Char) : List UInt8 := cs.flatMap String.utf8EncodeChar

/-- The tag that is written as a text. -/
def ofString (s : String) : Tag := ofOctets (octetsOf s.toList)

/-- The exclamation mark that local tags start with. -/
def localMark : Tag := ofString "!"

/-- Two parts one after the other. -/
def append (a b : Tag) : Tag := ⟨a.octets ++ b.octets⟩

instance instAppend : Append Tag := ⟨append⟩

/-- Whether nothing is left of a part. -/
def isEmpty (t : Tag) : Bool := t.octets.isEmpty

/-- The name of a local tag. -/
def localName? (t : Tag) : Option String :=
  match t.octets with
  | 33 :: name => String.fromUTF8? ⟨name.toArray⟩
  | _ => none

/-! ### Reading a part -/

/-- The characters that may stand in a tag, beside those of words. -/
def isTagChar (verbatim : Bool) (c : Char) : Bool :=
  isWordChar c || ";/?:@&=+$.!~*'()".toList.contains c || verbatim && ",[]".toList.contains c

/-- How many more octets a character takes after an octet, of which `n` were to come with it:
the first octet of a character tells their count, and all others have the bits `10` in front. -/
def more? (octet : Nat) : Nat → Option Nat
  | 0 =>
    if octet < 0x80 then some 0
    else if octet / 32 = 6 then some 1
    else if octet / 16 = 14 then some 2
    else if octet / 8 = 30 then some 3
    else none
  | n + 1 => if octet / 64 = 2 then some n else none

/-- The octets of a part and how many characters they take, where `n` octets have to be
escaped first. An escape is a percent sign and two hexadecimal digits. -/
def readOctets? (verbatim : Bool) (n : Nat) : List Char → Option (List UInt8 × Nat)
  | '%' :: a :: b :: rest => do
    let octet := (← Json.hexDigit? a) * 16 + (← Json.hexDigit? b)
    let (octets, taken) ← readOctets? verbatim (← more? octet n) rest
    return (UInt8.ofNat octet :: octets, taken + 3)
  | c :: rest =>
    if n ≠ 0 || c = '%' then none
    else if isTagChar verbatim c then
      (readOctets? verbatim 0 rest).map fun (octets, taken) => (octetsOf [c] ++ octets, taken + 1)
    else some ([], 0)
  | [] => if n = 0 then some ([], 0) else none

/-- The octets of a part at the start of a source. -/
def read? (verbatim : Bool) (s : Source) : Option (List UInt8 × Source) :=
  (readOctets? verbatim 0 s.rest).map fun (octets, taken) => (octets, s.skip taken)

end Tag

end CriteriaQuery.Yaml
