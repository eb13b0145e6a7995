import CriteriaQuery.Cache.Basic

/-!
# Calls on a cache

The calls that a cache offers: to get the value of a key and have it made if there is none,
to get it without making one, and to invalidate keys. While a value is being made its slot
stays locked, so that of several callers for one key one makes the value and the others get
it; a call that fails to make it leaves the slot empty. An invalidation empties the slots
that are in use after it has waited for them.

A cache that is not enabled makes a value for every call and keeps none.

## Implementation notes

A call is a function on caches that gives nothing when it has to wait for a slot: nobody
else is there to unlock it. Making a value may call the cache in turn.
-/

namespace CriteriaQuery.Cache

variable {κ σ ε : Type} [DecidableEq κ]

/-- How a call for the value of a key goes on. -/
inductive Start (σ : Type)
  /-- The value is there. -/
  | hit (value : Made σ)
  /-- The value has to be made, for a slot that the call has locked if values are kept. -/
  | make (slot : Option Nat)

/-- Starts a call for the value of a key. -/
def start? (key : κ) (c : Cache κ σ) : Option (Start σ × Cache κ σ) :=
  if c.policy.enabled then do
    let (now, c) := c.tick
    let (i, c) := c.acquire key now
    let c ← c.lock? i
    match (c.slot i).content with
    | some m => return (.hit m, (c.count true).leave i)
    | none => return (.make (some i), c.count false)
  else some (.make none, c.countBuild)

/-- Ends a call that had to make a value. -/
def finish (slot : Option Nat) (result : Except ε σ) (c : Cache κ σ) :
    Except ε (Made σ) × Cache κ σ :=
  match slot, result with
  | none, .ok v =>
    let (m, c) := c.make v
    (.ok m, c)
  | none, .error e => (.error e, c)
  | some i, .ok v =>
    let (m, c) := c.countBuild.make v
    (.ok m, (c.fill i (some m)).leave i)
  | some i, .error e => (.error e, c.leave i)

/-- The value of a key, made by `build` if there is none. -/
def getOrBuild? (key : κ) (build : Cache κ σ → Option (Except ε σ × Cache κ σ))
    (c : Cache κ σ) : Option (Except ε (Made σ) × Cache κ σ) := do
  match ← c.start? key with
  | (.hit m, c) => return (.ok m, c)
  | (.make slot, c) =>
    let (result, c) ← build c
    return c.finish slot result

/-- The value of a key, if there is one. -/
def get? (key : κ) (c : Cache κ σ) : Option (Option (Made σ) × Cache κ σ) :=
  if c.policy.enabled then
    match c.find? key with
    | none => some (none, c)
    | some (i, c) => do
      let c ← c.lock? i
      let content := (c.slot i).content
      return (content, ((c.unlock i).count content.isSome).drop i)
  else some (none, c)

/-- Empties a slot that the call holds, and lets go of it. -/
def empty? (i : Nat) (c : Cache κ σ) : Option (Cache κ σ) :=
  (c.lock? i).map fun c => (c.fill i none).leave i

/-- Empties slots that the call holds, one after the other. -/
def emptyAll? : List Nat → Cache κ σ → Option (Cache κ σ)
  | [], c => some c
  | i :: rest, c => do emptyAll? rest (← c.empty? i)

/-- Makes matching keys lose their values. -/
def invalidate? (matching : κ → Bool) (c : Cache κ σ) : Option (Cache κ σ) :=
  let (busy, c) := c.sweep matching
  c.emptyAll? busy

end CriteriaQuery.Cache
