/-!
# Caches with slots

A cache keeps, for each key in use, an entry that points at a slot, and a slot is either
empty or holds a value that was made for the key. Callers work on slots: a call takes hold
of the slot of its key, locks it, reads it or makes a value for it, unlocks it and lets go.
An entry is idle while nobody holds its slot, and only idle entries are evicted or removed.

The operations of this module are those that callers perform in one piece, so that calls
which overlap are sequences of them in some order. One thing does not wait its turn: a slot is
let go of at any time, also while another call goes through the entries and looks which of them
are idle. What such a call may find is told where calls overlap.

## Implementation notes

Slots are numbered in the order of their creation and stay in the cache's list of slots
after their entry is gone. Every value made carries a serial number, which tells it apart
from equal values made at other times.
-/

namespace CriteriaQuery

/-- Whether values are kept, and how many entries a cache is meant to have at most. -/
structure CachePolicy where
  enabled : Bool := true
  maxEntries : Nat := 256
deriving DecidableEq

/-- The count of entries from which on one is evicted before another is added. -/
def CachePolicy.capacity (p : CachePolicy) : Nat := max p.maxEntries 1

/-- A value that was made, and its serial number. -/
structure Made (σ : Type) where
  serial : Nat
  value : σ

/-- A place for the value of a key, and who is at it. -/
structure Slot (σ : Type) where
  content : Option (Made σ) := none
  holders : Nat := 0
  locked : Bool := false

/-- The slot of a key, and when a call last asked for it to be filled. -/
structure CacheEntry where
  slot : Nat
  lastUsed : Nat
deriving DecidableEq

/-- A cache. -/
structure Cache (κ σ : Type) where
  policy : CachePolicy
  entries : List (κ × CacheEntry) := []
  slots : List (Slot σ) := []
  clock : Nat := 0
  /-- The count of values made so far. -/
  made : Nat := 0
  hits : Nat := 0
  misses : Nat := 0
  builds : Nat := 0
  evictions : Nat := 0

namespace Cache

variable {κ σ : Type} [DecidableEq κ]

/-- The entry of a key. -/
def entry? (c : Cache κ σ) (key : κ) : Option CacheEntry :=
  (c.entries.find? fun e => e.1 = key).map Prod.snd

/-- The slot of a number. -/
def slot (c : Cache κ σ) (i : Nat) : Slot σ := (c.slots[i]?).getD {}

/-- Changes one slot. -/
def modifySlot (c : Cache κ σ) (i : Nat) (f : Slot σ → Slot σ) : Cache κ σ :=
  { c with slots := c.slots.modify i f }

/-- Whether nobody holds the slot of an entry. -/
def isIdle (c : Cache κ σ) (e : CacheEntry) : Bool := (c.slot e.slot).holders = 0

/-- Takes hold of a slot. -/
def hold (c : Cache κ σ) (i : Nat) : Cache κ σ :=
  c.modifySlot i fun s => { s with holders := s.holders + 1 }

/-- Lets go of a slot. -/
def drop (c : Cache κ σ) (i : Nat) : Cache κ σ :=
  c.modifySlot i fun s => { s with holders := s.holders - 1 }

/-- Locks a slot; none while somebody else has it locked. -/
def lock? (c : Cache κ σ) (i : Nat) : Option (Cache κ σ) :=
  if (c.slot i).locked then none else some (c.modifySlot i fun s => { s with locked := true })

/-- Unlocks a slot. -/
def unlock (c : Cache κ σ) (i : Nat) : Cache κ σ :=
  c.modifySlot i fun s => { s with locked := false }

/-- Unlocks a slot and lets go of it. -/
def leave (c : Cache κ σ) (i : Nat) : Cache κ σ := (c.unlock i).drop i

/-- Sets the content of a slot. -/
def fill (c : Cache κ σ) (i : Nat) (content : Option (Made σ)) : Cache κ σ :=
  c.modifySlot i fun s => { s with content }

/-- The time, which goes on by one. -/
def tick (c : Cache κ σ) : Nat × Cache κ σ := (c.clock, { c with clock := c.clock + 1 })

/-! ### The entries -/

/-- The entry that was used longest ago. -/
def oldest? : List (κ × CacheEntry) → Option (κ × CacheEntry)
  | [] => none
  | e :: rest =>
    match oldest? rest with
    | none => some e
    | some f => some (if e.2.lastUsed ≤ f.2.lastUsed then e else f)

/-- The entry to evict: of those found idle the one that was used longest ago. -/
def victimOf? (c : Cache κ σ) (idle : CacheEntry → Bool) : Option (κ × CacheEntry) :=
  oldest? (c.entries.filter fun e => idle e.2)

/-- The entry to evict: of the idle ones the one that was used longest ago. -/
def victim? (c : Cache κ σ) : Option (κ × CacheEntry) := c.victimOf? c.isIdle

/-- Removes the entry of a key. -/
def removeEntry (c : Cache κ σ) (key : κ) : Cache κ σ :=
  { c with entries := c.entries.filter fun e => !decide (e.1 = key) }

/-- Evicts an entry; none when none was found idle. -/
def evictOf? (c : Cache κ σ) (idle : CacheEntry → Bool) : Option (Cache κ σ) :=
  (c.victimOf? idle).map fun e => { c.removeEntry e.1 with evictions := c.evictions + 1 }

/-- Evicts an entry; none when all slots are held. -/
def evict? (c : Cache κ σ) : Option (Cache κ σ) := c.evictOf? c.isIdle

/-- Evicts entries until there is room for another one or all slots are held. -/
def makeRoom : Nat → Cache κ σ → Cache κ σ
  | 0, c => c
  | fuel + 1, c =>
    if c.policy.capacity ≤ c.entries.length then
      match c.evict? with
      | some c => makeRoom fuel c
      | none => c
    else c

/-- Notes that the slot of a key was asked for at a time. -/
def touch (c : Cache κ σ) (key : κ) (now : Nat) : Cache κ σ :=
  { c with entries := c.entries.map fun e =>
      if e.1 = key then (e.1, { e.2 with lastUsed := now }) else e }

/-- Adds an entry with a slot of its own, which is held. -/
def addEntry (c : Cache κ σ) (key : κ) (now : Nat) : Cache κ σ :=
  { c with
    entries := c.entries ++ [(key, ⟨c.slots.length, now⟩)]
    slots := c.slots ++ [{ holders := 1 }] }

/-- Takes hold of the slot of a key, which gets an entry if it has none. -/
def acquire (c : Cache κ σ) (key : κ) (now : Nat) : Nat × Cache κ σ :=
  match c.entry? key with
  | some e => (e.slot, (c.touch key now).hold e.slot)
  | none =>
    let c := c.makeRoom c.entries.length
    (c.slots.length, c.addEntry key now)

/-- Takes hold of the slot of a key that has an entry. -/
def find? (c : Cache κ σ) (key : κ) : Option (Nat × Cache κ σ) :=
  (c.entry? key).map fun e => (e.slot, c.hold e.slot)

/-- Removes the entries of matching keys that were found idle, and takes hold of the slots of the
others. -/
def sweepOf (c : Cache κ σ) (idle : CacheEntry → Bool) (matching : κ → Bool) :
    List Nat × Cache κ σ :=
  let busy := (c.entries.filter fun e => matching e.1 && !idle e.2).map fun e => e.2.slot
  let kept := c.entries.filter fun e => !matching e.1 || !idle e.2
  (busy, busy.foldl hold { c with entries := kept })

/-- Removes the idle entries of matching keys, and takes hold of the slots of the others. -/
def sweep (c : Cache κ σ) (matching : κ → Bool) : List Nat × Cache κ σ :=
  c.sweepOf c.isIdle matching

/-! ### Counting -/

/-- Counts a look-up, which found a value or did not. -/
def count (c : Cache κ σ) (found : Bool) : Cache κ σ :=
  if found then { c with hits := c.hits + 1 } else { c with misses := c.misses + 1 }

/-- Counts a build. -/
def countBuild (c : Cache κ σ) : Cache κ σ := { c with builds := c.builds + 1 }

/-- Gives a value its serial number. -/
def make (c : Cache κ σ) (value : σ) : Made σ × Cache κ σ :=
  (⟨c.made, value⟩, { c with made := c.made + 1 })

end Cache

end CriteriaQuery
